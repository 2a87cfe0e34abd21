/-
# Names in a row

Names that are drawn one after the other are given consecutive numbers, and each of them is the
name under which its text is interned from then on (`NameScheme.fresh_row`).
-/

import Graft.Proofs.Name.Numbering

namespace Graft

namespace Interner

variable {names names' : Interner} {text : String} {n : Name}

/-- What is found is found in every larger interner. -/
theorem Extends.find? (h : names'.Extends names) (hn : names.find? text = some n) :
    names'.find? text = some n :=
  find?_eq_some_iff.2 ((find?_eq_some_iff.1 hn).extends_ h)

/-- A string that was interned is found. -/
theorem find?_intern (h : names.intern text = .ok (n, names')) : names'.find? text = some n :=
  find?_eq_some_iff.2 (intern_means h)

end Interner

/-- A name that was drawn is the one under which its text is interned. -/
theorem NameScheme.find?_of_fresh {scheme : NameScheme} {base name : Name}
    {supply next : NameSupply} (h : scheme.fresh base supply = .ok name next) :
    next.names.find? (scheme.text (supply.names.lookup base) supply.next) = some name := by
  unfold fresh NameSupply.take at h
  dsimp only at h
  split at h
  · rename_i hintern
    cases h
    exact Interner.find?_intern hintern
  · cases h

/-- **Names that are drawn in a row** have consecutive numbers.  The one with number `k`, counted
from 0, is drawn from the supply that the `k` draws before it leave, and from then on it is found
for the text that it was made of there. -/
theorem NameScheme.fresh_row {α : Type} (scheme : NameScheme) (base : α → Name) {xs : List α}
    {names : List Name} {supply last : NameSupply}
    (h : xs.mapM (fun x => scheme.fresh (base x)) supply = .ok names last) :
    last.names.Extends supply.names ∧ last.next = supply.next + xs.length ∧
      ∀ (k : Nat) x, xs[k]? = some x → ∃ name before, names[k]? = some name ∧
        (xs.take k).mapM (fun x => scheme.fresh (base x)) supply = .ok (names.take k) before ∧
        before.names.Extends supply.names ∧
        last.names.find? (scheme.text (before.names.lookup (base x)) (supply.next + k)) =
          some name := by
  -- the row is followed from its first draw, so the supply it starts from changes
  induction xs generalizing supply names with
  | nil =>
    cases h
    exact ⟨.refl _, rfl, nofun⟩
  | cons x xs ih =>
    obtain ⟨name, next, rest, hfresh, hrest, rfl⟩ := Ends.exists_of_mapM_cons h
    obtain ⟨hnext, hext, -⟩ := (scheme.fresh_ends (base x) supply).ok_of_eq hfresh
    obtain ⟨hext', hnext', hnames⟩ := ih hrest
    refine ⟨hext.trans hext', ?_, fun k y hy => ?_⟩
    · rw [hnext', hnext, List.length_cons, Nat.add_right_comm, Nat.add_assoc]
    · cases k with
      | zero =>
        obtain rfl := Option.some.inj hy
        exact ⟨name, supply, rfl, rfl, .refl _, hext'.find? (find?_of_fresh hfresh)⟩
      | succ k =>
        obtain ⟨name', before, hname', hdrawn, hbefore, hfind⟩ := hnames k y hy
        refine ⟨name', before, hname', ?_, hext.trans hbefore, ?_⟩
        · rw [List.take_succ_cons, List.mapM_cons, Ends.bind_of_ok hfresh, Ends.bind_of_ok hdrawn]
          rfl
        · rwa [hnext, Nat.add_right_comm, Nat.add_assoc] at hfind

end Graft
