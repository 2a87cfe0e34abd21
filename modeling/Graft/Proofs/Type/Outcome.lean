/-
# What a copy makes of a type

A copy replaces the parameters in a type where its substitution fits, and keeps the type
where it does not or where there is no substitution (`ParamSubst.made`).  What is read in
any later pool is that tree (`ParamSubst.unfold_outcome`), and it is the same in every
larger pool (`ParamSubst.made_grown`).

The parameters of a replaced type are those that are not mapped and those that the
replacements bring in (`TypeTree.params_replace`).  So a parameter that is mapped and that
no replacement has is gone (`ParamSubst.Eliminates.not_mem_replaced`).
-/

import Graft.Proofs.Type.Replacement

namespace Graft

/-- The parameter that occurs. -/
def Occurrence.param (o : Occurrence) : Name × Nat := (o.name, o.id)

namespace TypeTree

/-- The parameters that occur in a type, from left to right. -/
def params (t : TypeTree) : List (Name × Nat) := (t.occurrences .invariant).map Occurrence.param

/-- The parameters of a map are those of its keys and then those of its values. -/
theorem params_map (key value : TypeTree) :
    (TypeTree.map key value).params = key.params ++ value.params := List.map_append

/-- The parameters of a function are those of its parameter types and then those of its result. -/
theorem params_function (ts : List TypeTree) (result : TypeTree) :
    (TypeTree.function ts result).params = ts.flatMap params ++ result.params := by
  simp only [params, occurrences, Variance.flip, occurrencesAll_eq_flatMap, List.map_append,
    List.map_flatMap]
  rfl

/-- The parameters of a named type are those of its arguments. -/
theorem params_named (name : Name) (args : List TypeTree) :
    (TypeTree.named name args).params = args.flatMap params := by
  simp only [params, occurrences, occurrencesAll_eq_flatMap, List.map_flatMap]
  rfl

/-- **A mapped parameter gives way to those of its replacement.** -/
theorem params_replace (σ : Name → Nat → Option TypeTree) (t : TypeTree) :
    (t.replace σ).params = t.params.flatMap fun p => (σ p.1 p.2).elim [p] params := by
  have hparts : ∀ ts : List TypeTree,
      (∀ t ∈ ts, (t.replace σ).params = t.params.flatMap fun p => (σ p.1 p.2).elim [p] params) →
        (replaceAll σ ts).flatMap params =
          (ts.flatMap params).flatMap fun p => (σ p.1 p.2).elim [p] params := by
    intro ts hts
    rw [replaceAll_eq_map, List.flatMap_map, List.flatMap_assoc]
    exact List.flatMap_congr hts
  induction t with
  | primitive p => rfl
  | param name id =>
    have hself : (TypeTree.param name id).params = [(name, id)] := rfl
    rw [replace, hself, List.flatMap_singleton]
    cases σ name id <;> rfl
  | list elem ih => exact ih
  | option inner ih => exact ih
  | map key value ihk ihv => rw [replace, params_map, params_map, ihk, ihv, List.flatMap_append]
  | function params result ihp ihr =>
    rw [replace, params_function, params_function, hparts params ihp, ihr, List.flatMap_append]
  | named name args ih => rw [replace, params_named, params_named, hparts args ih]

end TypeTree

namespace ParamSubst

open TypePool

variable {subst : Option ParamSubst} {s : ParamSubst} {start pool : TypePool} {x : TypeId}

open Classical in
/-- The tree of what a copy makes of a type. -/
noncomputable def made (subst : Option ParamSubst) (pool : TypePool) (t : TypeId) : TypeTree :=
  match subst with
  | none => pool.unfold t
  | some s => if s.Fits pool t .invariant then s.replaced pool t else pool.unfold t

/-- A type that fits the substitution is made into what replaces it. -/
theorem made_of_fits (h : s.Fits pool x .invariant) : made (some s) pool x = s.replaced pool x :=
  if_pos h

/-- A type that does not fit the substitution is left as it is. -/
theorem made_of_not_fits (h : ¬ s.Fits pool x .invariant) :
    made (some s) pool x = pool.unfold x := if_neg h

/-- **What a copy makes of a type** of the pool that it starts with, read later. -/
theorem unfold_outcome (hsound : start.Sound) (hs : ∀ s ∈ subst, s.Within start)
    (hg : Grown start pool) (hx : start.Has x) (hr : pool.Has (outcome subst pool x)) :
    pool.unfold (outcome subst pool x) = made subst start x := by
  cases subst with
  | none => exact hg.extends_.unfold hsound.ordered hx
  | some s =>
    have hsound' := hg.sound hsound
    have hends := replaces_apply hsound' ((hs s rfl).extends_ hg.extends_) (hg.extends_.has hx)
      .invariant
    have heq := s.applyOrKeep_some x pool ()
    cases happly : s.apply x .invariant pool with
    | ok r pool' =>
      obtain ⟨hg', -, hfits, htree, -⟩ := hends.ok_of_eq happly
      rw [happly] at heq
      have hout : outcome (some s) pool x = r := by rw [outcome, heq]
      rw [hout] at hr ⊢
      rw [← hg'.extends_.unfold hsound'.ordered hr, htree,
        replaced_grown hsound (hs s rfl) hg hx, made_of_fits ((fits_grown hsound hg hx).1 hfits)]
    | error e pool' =>
      obtain ⟨-, rfl, hnot⟩ := hends.err_of_eq happly
      rw [happly] at heq
      have hout : outcome (some s) pool x = x := by rw [outcome, heq]
      rw [hout, hg.extends_.unfold hsound.ordered hx,
        made_of_not_fits fun hfits => hnot ((fits_grown hsound hg hx).2 hfits)]

/-- It is the same in every larger pool. -/
theorem made_grown (hsound : start.Sound) (hs : ∀ s ∈ subst, s.Within start)
    (hg : Grown start pool) (hx : start.Has x) : made subst pool x = made subst start x := by
  cases subst with
  | none => exact hg.extends_.unfold hsound.ordered hx
  | some s =>
    by_cases hfits : s.Fits start x .invariant
    · rw [made_of_fits hfits, made_of_fits ((fits_grown hsound hg hx).2 hfits),
        replaced_grown hsound (hs s rfl) hg hx]
    · rw [made_of_not_fits hfits, made_of_not_fits fun h => hfits ((fits_grown hsound hg hx).1 h),
        hg.extends_.unfold hsound.ordered hx]

/-- The substitution maps the parameter, and it occurs in no replacement. -/
structure Eliminates (s : ParamSubst) (pool : TypePool) (name : Name) (id : Nat) : Prop where
  mapped : ∃ p, s.projection? pool name id = some p
  free : ∀ t p, s.get? t = some p → (name, id) ∉ (pool.unfold p.ty).params

/-- **A parameter that is eliminated is in no replaced type.** -/
theorem Eliminates.not_mem_replaced {name : Name} {id : Nat} (h : s.Eliminates pool name id)
    (t : TypeId) : (name, id) ∉ (s.replaced pool t).params := by
  rw [replaced, TypeTree.params_replace, List.mem_flatMap]
  rintro ⟨p, -, hp⟩
  cases hproj : s.projection? pool p.1 p.2 with
  | none =>
    rw [trees, hproj, Option.map_none, Option.elim_none, List.mem_singleton] at hp
    obtain ⟨q, hq⟩ := h.mapped
    rw [← hp, hq] at hproj
    cases hproj
  | some q =>
    rw [trees, hproj] at hp
    obtain ⟨t, -, hget⟩ := Option.bind_eq_some_iff.1 hproj
    exact h.free t q hget hp

end ParamSubst

end Graft
