/-
# Substitutions after one another

A substitution is exact if it projects none of its replacements.  It fits everywhere, so
it always has a result (`ParamSubst.Exact.apply_ends`), and a copy under it replaces the
parameters of every type (`ParamSubst.Exact.made`).  Two exact substitutions after one
another are one: the first with the second applied to its replacements, and the second for
the parameters that the first does not map (`ParamSubst.andThen_ends`).
-/

import Graft.Proofs.Type.Outcome

namespace Graft

namespace ParamSubst

open TypePool TypeTree

variable {s t : ParamSubst} {pool pool' start : TypePool} {x : TypeId}

/-- No replacement is projected. -/
def Exact (s : ParamSubst) : Prop := ∀ e ∈ s.entries, e.2.variance = .invariant

instance (s : ParamSubst) : Decidable s.Exact :=
  inferInstanceAs (Decidable (∀ e ∈ s.entries, e.2.variance = .invariant))

namespace Exact

/-- What an exact substitution replaces a parameter by is taken in both directions. -/
theorem get? (h : s.Exact) {param : TypeId} {p : Projection} (hp : s.get? param = some p) :
    p.variance = .invariant := by
  obtain ⟨before, after, he, -⟩ := List.lookup_eq_some_iff.1 hp
  exact h (param, p) (he ▸ List.mem_append_right _ (.head _))

/-- An exact replacement may stand anywhere. -/
theorem fits (h : s.Exact) (pool : TypePool) (x : TypeId) (v : Variance) : s.Fits pool x v := by
  intro o _ p hp
  obtain ⟨u, -, hget⟩ := Option.bind_eq_some_iff.1 hp
  rw [Variance.admits, h.get? hget]
  rfl

/-- An exact substitution always has a result. -/
theorem apply_ends (h : s.Exact) (hsound : pool.Sound) (hs : s.Within pool) (hx : pool.Has x)
    (v : Variance) :
    Ends (s.apply x v) pool
      (fun r pool' => Grown pool pool' ∧ pool'.Has r ∧ pool'.unfold r = s.replaced pool x)
      (fun _ _ => False) :=
  (replaces_apply hsound hs hx v).imp (fun _ _ ⟨hg, hr, _, htree, _⟩ => ⟨hg, hr, htree⟩)
    fun _ _ ⟨_, _, hnot⟩ => hnot (h.fits pool x v)

/-- A copy under an exact substitution replaces the parameters of every type. -/
theorem made (h : s.Exact) (pool : TypePool) (x : TypeId) :
    ParamSubst.made (some s) pool x = s.replaced pool x :=
  made_of_fits (h.fits pool x .invariant)

end Exact

/-! ### Composing substitutions -/

/-- First `s`, then `t`, as one map: what `s` gives for a parameter, with `t` applied to it,
and what `t` gives for a parameter that `s` does not map. -/
def andThen (s t : ParamSubst) : SubstM ParamSubst := do
  let entries ← s.entries.mapM fun e => do
    let ty ← t.apply e.2.ty .invariant
    return (e.1, { e.2 with ty })
  return ⟨entries ++ t.entries⟩

/-- What the composed substitution gives does not depend on types that were added. -/
theorem following_grown (hsound : pool.Sound) (hs : s.Within pool) (ht : t.Within pool)
    (hg : Grown pool pool') {name : Name} {id : Nat}
    (hfind : ∃ u, pool.find? (.param name id) = some u) :
    following (s.trees pool) (t.trees pool') name id =
      following (s.trees pool) (t.trees pool) name id := by
  have hreplaced : ∀ r, s.trees pool name id = some r →
      r.replace (t.trees pool') = r.replace (t.trees pool) := by
    intro r hr
    obtain ⟨p, hp, rfl⟩ := Option.map_eq_some_iff.1 hr
    obtain ⟨u, -, hget⟩ := Option.bind_eq_some_iff.1 hp
    have hhas : pool.Has p.ty := hs.get? hget
    exact replace_congr (v := .invariant) fun o ho =>
      trees_grown hsound ht hg (exists_find?_param hsound.ordered hhas ho)
  simp only [following]
  cases hr : s.trees pool name id with
  | some r => exact congrArg some (hreplaced r hr)
  | none => exact trees_grown hsound ht hg hfind

/-- The entries `es` give in the later pool what the entries `done` give in the pool, followed
by `t`. -/
structure Followed (t : ParamSubst) (pool : TypePool) (done es : List (TypeId × Projection))
    (pool' : TypePool) : Prop where
  grown : Grown pool pool'
  invariant : ∀ e ∈ es, e.2.variance = .invariant
  has : ∀ e ∈ es, pool'.Has e.2.ty
  trees : ∀ x, (es.lookup x).map (fun p => pool'.unfold p.ty) =
    (done.lookup x).map fun p => (pool.unfold p.ty).replace (t.trees pool)

/-- The replacements are substituted one after the other. -/
theorem followed_entries (hsound : pool.Sound) (hte : t.Exact) (ht : t.Within pool)
    {entries : List (TypeId × Projection)}
    (hentries : ∀ e ∈ entries, e.2.variance = .invariant ∧ pool.Has e.2.ty) :
    Ends (entries.mapM fun e => do
        let ty ← t.apply e.2.ty .invariant
        return (e.1, { e.2 with ty })) pool
      (Followed t pool entries) (fun _ _ => False) := by
  refine Ends.mapM (I := Followed t pool) entries ⟨.refl pool, nofun, nofun, fun _ => rfl⟩ ?_
  rintro done e rest hsplit es pool₁ hdone
  obtain ⟨he, hty⟩ := hentries e (hsplit ▸ List.mem_append_right _ (.head _))
  have hg := hdone.grown
  refine Ends.bind ((hte.apply_ends (hg.sound hsound) (ht.extends_ hg.extends_)
    (hg.extends_.has hty) .invariant).imp ?_ fun _ _ h => h)
  rintro ty pool₂ ⟨hg₂, hhas, htree⟩
  rw [replaced_grown hsound ht hg hty] at htree
  refine ⟨hg.trans hg₂, ?_, ?_, fun x => ?_⟩
  · exact List.forall_mem_append.2 ⟨hdone.invariant, List.forall_mem_singleton.2 he⟩
  · exact List.forall_mem_append.2 ⟨fun e' he' => hg₂.extends_.has (hdone.has e' he'),
      List.forall_mem_singleton.2 hhas⟩
  · -- the entries that are done give the same in the larger pool
    have hkept : (es.lookup x).map (fun p => pool₂.unfold p.ty) =
        (es.lookup x).map fun p => pool₁.unfold p.ty := by
      refine Option.map_congr fun p hp => ?_
      obtain ⟨before, after, hes, -⟩ := List.lookup_eq_some_iff.1 hp
      exact hg₂.extends_.unfold (hg.ordered hsound.ordered)
        (hdone.has (x, p) (hes ▸ List.mem_append_right _ (.head _)))
    rw [List.lookup_append, List.lookup_append, Option.map_or, Option.map_or, hkept,
      hdone.trees, List.lookup_cons, List.lookup_cons]
    cases x == e.1 with
    | true => exact congrArg _ (congrArg some htree)
    | false => rfl

/-- The tree given to a parameter of the pool is the one its entry names. -/
theorem trees_of_find? {name : Name} {id : Nat} (h : pool.find? (.param name id) = some x) :
    s.trees pool name id = (s.entries.lookup x).map fun p => pool.unfold p.ty := by
  rw [trees, projection?, h]
  rfl

/-- **Two exact substitutions compose.**  Composing them always gives an exact substitution,
and it gives for each parameter of the pool what `s` gives, followed by `t`. -/
theorem andThen_ends (hsound : pool.Sound) (hse : s.Exact) (hs : s.Within pool) (hte : t.Exact)
    (ht : t.Within pool) :
    Ends (s.andThen t) pool
      (fun u pool' => Grown pool pool' ∧ u.Exact ∧ u.Within pool' ∧
        ∀ name id, (∃ x, pool.find? (.param name id) = some x) →
          u.trees pool' name id = following (s.trees pool) (t.trees pool) name id)
      (fun _ _ => False) := by
  refine Ends.bind ((followed_entries hsound hte ht fun e he => ⟨hse e he, hs e he⟩).imp ?_
    fun _ _ h => h)
  rintro es pool' ⟨hg, hexact, hhas, htrees⟩
  refine ⟨hg, List.forall_mem_append.2 ⟨hexact, hte⟩, List.forall_mem_append.2
    ⟨hhas, ht.extends_ hg.extends_⟩, ?_⟩
  rintro name id ⟨x, hx⟩
  have hkept := trees_grown hsound ht hg ⟨x, hx⟩
  rw [trees_of_find? (hg.extends_.find? hx)] at hkept ⊢
  have hfirst : s.trees pool name id = _ := trees_of_find? hx
  rw [List.lookup_append, Option.map_or, htrees, hkept, following, hfirst]
  cases s.entries.lookup x <;> rfl

/-- The tree of a type of an earlier pool, replaced under `s` and then under `t`. -/
theorem replaced_replaced (hsound : start.Sound) (hs : s.Within start) (ht : t.Within start)
    (hg : Grown start pool) (hx : start.Has x) {r : TypeId}
    (hr : pool.unfold r = s.replaced start x) :
    t.replaced pool r = (start.unfold x).replace (following (s.trees start) (t.trees start)) := by
  rw [replaced, hr, replaced, replace_replace]
  exact replace_congr (v := .invariant) fun o ho =>
    following_grown hsound hs ht hg (exists_find?_param hsound.ordered hx ho)

/-- A substitution that was composed in a later pool replaces the same in a type of the
earlier one. -/
theorem replaced_of_following {u : ParamSubst} (hsound : start.Sound) (hs : s.Within start)
    (ht : t.Within start) (hg : Grown start pool) (hg' : Grown pool pool') (hx : start.Has x)
    (hu : ∀ name id, (∃ y, pool.find? (.param name id) = some y) →
      u.trees pool' name id = following (s.trees pool) (t.trees pool) name id) :
    u.replaced pool' x = (start.unfold x).replace (following (s.trees start) (t.trees start)) := by
  rw [replaced, (hg.trans hg').extends_.unfold hsound.ordered hx]
  refine replace_congr (v := .invariant) fun o ho => ?_
  have hfind := exists_find?_param hsound.ordered hx ho
  have hfirst : s.trees pool o.name o.id = s.trees start o.name o.id :=
    trees_grown hsound hs hg hfind
  rw [hu _ _ (hfind.imp fun _ hy => hg.extends_.find? hy), ← following_grown hsound hs ht hg hfind,
    following, hfirst, following]

end ParamSubst

end Graft
