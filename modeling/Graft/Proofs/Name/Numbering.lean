/-
# Numbered names

A generated name ends in a number, and the rest of its text may be anything.  The text still
says which number it is (`NameScheme.text_injective`): a number has no underscore in it, so
it is what follows the last one.

Names are drawn from a supply one after the other, by whatever schemes, while other strings
are interned (`NameSupply.Draws`).  The numbers that are drawn only go up, and every name goes
on to stand for its text (`NameSupply.Draws.ordered`).  So no two of the names are the same,
and neither are two of their texts (`NameSupply.Draws.distinct`).
-/

import Graft.Name.Supply
import Graft.Proofs.Growth
import Graft.Proofs.Outcome
import Mathlib.Data.List.Basic

namespace Graft

/-! ### Texts -/

/-- No number is written with an underscore. -/
theorem underscore_not_mem_digits (n : Nat) : '_' ∉ (toString n).toList := by
  intro h
  rw [Nat.toString_eq_ofList_toDigits, String.toList_ofList] at h
  exact absurd (Nat.isDigit_of_mem_toDigits (by decide) (by decide) h) (by decide)

/-- Numbers are written differently unless they are the same. -/
theorem digits_injective {m n : Nat} (h : toString m = toString n) : m = n := by
  have hvalue := congrArg (fun s => Nat.ofDigitChars 10 s.toList 0) h
  simpa [Nat.toString_eq_ofList_toDigits] using hvalue

/-- The last underscore is determined, with what is before it and what follows. -/
theorem last_underscore {p q s t : List Char} (h : p ++ '_' :: s = q ++ '_' :: t)
    (hs : '_' ∉ s) (ht : '_' ∉ t) : p = q ∧ s = t := by
  rcases List.append_eq_append_iff.1 h with ⟨rest, hq, hrest⟩ | ⟨rest, hp, hrest⟩
  · cases rest with
    | nil => exact ⟨(hq.trans (List.append_nil p)).symm, (List.cons.inj hrest).2⟩
    | cons c rest =>
      -- the underscore before `t` would be in `s`
      obtain ⟨-, rfl⟩ := List.cons.inj hrest
      exact absurd (List.mem_append_right _ (.head _)) hs
  · cases rest with
    | nil => exact ⟨hp.trans (List.append_nil q), (List.cons.inj hrest).2.symm⟩
    | cons c rest =>
      obtain ⟨-, rfl⟩ := List.cons.inj hrest
      exact absurd (List.mem_append_right _ (.head _)) ht

/-- A numbered text determines its number and what it begins with. -/
theorem numbered_injective {text text' : String} {m n : Nat}
    (h : text ++ "_" ++ toString m = text' ++ "_" ++ toString n) : text = text' ∧ m = n := by
  have hchars : ∀ (text : String) (n : Nat), (text ++ "_" ++ toString n).toList =
      text.toList ++ '_' :: (toString n).toList := by
    intro text n
    rw [String.toList_append, String.toList_append, List.append_assoc]
    rfl
  have htexts := congrArg String.toList h
  rw [hchars, hchars] at htexts
  obtain ⟨htext, hnumber⟩ :=
    last_underscore htexts (underscore_not_mem_digits m) (underscore_not_mem_digits n)
  exact ⟨String.toList_injective htext, digits_injective (String.toList_injective hnumber)⟩

/-- **The text of a generated name determines its number,** whatever it begins with. -/
theorem NameScheme.text_injective {scheme scheme' : NameScheme} {base base' : String} {m n : Nat}
    (h : scheme.text base m = scheme'.text base' n) : m = n := (numbered_injective h).2

/-! ### What names stand for -/

namespace Interner

variable {names names' : Interner} {n : Name} {text : String}

/-- The name is interned and stands for the text. -/
def Means (names : Interner) (n : Name) (text : String) : Prop :=
  names.strings[n.raw]? = some text

/-- A name keeps its meaning as the table grows. -/
theorem Means.extends_ (h : names.Means n text) (hext : names'.Extends names) :
    names'.Means n text := hext _ _ h

/-- A name that has a meaning is read as that text. -/
theorem Means.lookup (h : names.Means n text) : names.lookup n = text := by
  rw [Interner.lookup, h, Option.getD_some]

/-- A string is found under the name that stands for it. -/
theorem find?_eq_some_iff : names.find? text = some n ↔ names.Means n text :=
  names.indexes text n.raw

/-- A name stands for one string, and a string has one name. -/
theorem Means.name_eq {m : Name} (hm : names.Means m text) (hn : names.Means n text) : m = n :=
  Option.some.inj ((find?_eq_some_iff.2 hm).symm.trans (find?_eq_some_iff.2 hn))

/-- The name that a string is interned under stands for it. -/
theorem intern_means (h : names.intern text = .ok (n, names')) : names'.Means n text := by
  rcases intern_cases h with ⟨hfind, rfl⟩ | ⟨-, -, rfl, rfl⟩
  · exact find?_eq_some_iff.1 hfind
  · exact Array.getElem?_push_size

end Interner

/-! ### Drawing from a supply -/

/-- A name that was drawn, by a scheme and for a base, and the number that it was given. -/
structure Draw where
  scheme : NameScheme
  base : Name
  number : Nat
  name : Name

namespace NameSupply

variable {supply middle last : NameSupply} {log log' : List Draw}

/-- The names in the log were drawn, in this order, on the way from the first supply to the
last.  Names that found no room are not in the log, nor are strings that something else
interned. -/
inductive Draws : NameSupply → List Draw → NameSupply → Prop
  | done (supply : NameSupply) : Draws supply [] supply
  | drawn {supply next last : NameSupply} {scheme : NameScheme} {base name : Name}
      {log : List Draw} (h : scheme.fresh base supply = .ok name next)
      (rest : Draws next log last) :
      Draws supply (⟨scheme, base, supply.next, name⟩ :: log) last
  | refused {supply next last : NameSupply} {scheme : NameScheme} {base : Name}
      {e : CapacityError} {log : List Draw} (h : scheme.fresh base supply = .error e next)
      (rest : Draws next log last) : Draws supply log last
  | interned {supply last : NameSupply} {text : String} {name : Name} {names : Interner}
      {log : List Draw} (h : supply.names.intern text = .ok (name, names))
      (rest : Draws { supply with names } log last) : Draws supply log last

/-- Draws made one after another. -/
theorem Draws.append (h : supply.Draws log middle) (h' : middle.Draws log' last) :
    supply.Draws (log ++ log') last := by
  induction h with
  | done => exact h'
  | drawn h _ ih => exact .drawn h (ih h')
  | refused h _ ih => exact .refused h (ih h')
  | interned h _ ih => exact .interned h (ih h')

/-- The supply in the middle is one that the last supply has drawn a name from, on the way from the
first supply. -/
structure DrawnAt (supply middle last : NameSupply) : Prop where
  /-- What the first supply has interned means the same there. -/
  extends_ : middle.names.Extends supply.names
  /-- What is interned there means the same at the end. -/
  kept : last.names.Extends middle.names
  /-- The number that is drawn there was not given out before. -/
  next_ge : supply.next ≤ middle.next
  /-- It is not given out again. -/
  next_lt : middle.next < last.next

/-- The name was drawn at a point between the two supplies.  In the last one it stands for the text
that the scheme makes, with the number of that point, of what the base stood for there. -/
def Names (supply last : NameSupply) (d : Draw) : Prop :=
  ∃ middle, supply.DrawnAt middle last ∧ middle.next = d.number ∧
    last.names.Means d.name (d.scheme.text (middle.names.lookup d.base) d.number)

/-- What is known of the names that were drawn between two supplies. -/
structure Ordered (supply : NameSupply) (log : List Draw) (last : NameSupply) : Prop where
  /-- What was interned means the same. -/
  extends_ : last.names.Extends supply.names
  next_le : supply.next ≤ last.next
  names : ∀ d ∈ log, supply.Names last d
  /-- Every number is larger than those drawn before. -/
  increasing : log.Pairwise fun d e => d.number < e.number

/-- The numbers in the log were not given out before. -/
theorem Ordered.number_ge (h : supply.Ordered log last) {d : Draw} (hd : d ∈ log) :
    supply.next ≤ d.number := by
  obtain ⟨middle, hmiddle, hnumber, -⟩ := h.names d hd
  exact hnumber ▸ hmiddle.next_ge

/-- A step that draws nothing may come before. -/
theorem Ordered.after (h : middle.Ordered log last)
    (hext : middle.names.Extends supply.names) (hnext : supply.next ≤ middle.next) :
    supply.Ordered log last where
  extends_ := hext.trans h.extends_
  next_le := Nat.le_trans hnext h.next_le
  names d hd := by
    obtain ⟨point, hpoint, hrest⟩ := h.names d hd
    exact ⟨point, { hpoint with
      extends_ := hext.trans hpoint.extends_
      next_ge := Nat.le_trans hnext hpoint.next_ge }, hrest⟩
  increasing := h.increasing

end NameSupply

/-- A name is drawn with the next number, which is used up even if there is no room for the
name. -/
theorem NameScheme.fresh_ends (scheme : NameScheme) (base : Name) (supply : NameSupply) :
    Ends (scheme.fresh base) supply
      (fun name next => next.next = supply.next + 1 ∧ next.names.Extends supply.names ∧
        next.names.Means name (scheme.text (supply.names.lookup base) supply.next))
      (fun _ next => next.next = supply.next + 1 ∧ next.names.Extends supply.names) := by
  unfold Ends fresh NameSupply.take
  dsimp only
  cases h : supply.names.intern (scheme.text (supply.names.lookup base) supply.next) with
  | ok r => exact ⟨rfl, Interner.intern_extends h, Interner.intern_means h⟩
  | error e => exact ⟨rfl, .refl _⟩

namespace NameSupply

variable {supply last : NameSupply} {log : List Draw}

/-- **The numbers that are drawn only go up,** and every name goes on to stand for its text. -/
theorem Draws.ordered (h : supply.Draws log last) : supply.Ordered log last := by
  induction h with
  | done supply => exact ⟨.refl _, Nat.le_refl _, nofun, .nil⟩
  | @drawn supply next last scheme base name log h _ ih =>
    obtain ⟨hnext, hext, hmeans⟩ := (scheme.fresh_ends base supply).ok_of_eq h
    have hrest := ih.after hext (Nat.le.intro hnext.symm)
    have hlt : supply.next < next.next := by omega
    have hpoint : supply.DrawnAt supply last :=
      ⟨.refl _, hrest.extends_, Nat.le_refl _, Nat.lt_of_lt_of_le hlt ih.next_le⟩
    refine ⟨hrest.extends_, hrest.next_le, List.forall_mem_cons.2 ⟨?_, hrest.names⟩, ?_⟩
    · exact ⟨supply, hpoint, rfl, hmeans.extends_ ih.extends_⟩
    · exact List.pairwise_cons.2 ⟨fun d hd => Nat.lt_of_lt_of_le hlt (ih.number_ge hd),
        hrest.increasing⟩
  | @refused supply next last scheme base e log h _ ih =>
    obtain ⟨hnext, hext⟩ := (scheme.fresh_ends base supply).err_of_eq h
    exact ih.after hext (Nat.le.intro hnext.symm)
  | interned h _ ih => exact ih.after (Interner.intern_extends h) (Nat.le_refl _)

/-- **No two names that were drawn have the same text,** let alone are the same. -/
theorem Draws.distinct (h : supply.Draws log last) :
    (log.map fun d => last.names.lookup d.name).Nodup := by
  refine List.pairwise_map.2 ?_
  refine h.ordered.increasing.imp_of_mem fun {d e} hd he hlt htext => ?_
  obtain ⟨_, -, -, hmeans⟩ := h.ordered.names d hd
  obtain ⟨_, -, -, hmeans'⟩ := h.ordered.names e he
  rw [hmeans.lookup, hmeans'.lookup] at htext
  exact Nat.ne_of_lt hlt (NameScheme.text_injective htext)

end NameSupply

end Graft
