/-
# Substitutions that agree

Substitution reads a map of type parameters at the parameters that occur in the type and nowhere
else.  Two maps that give the same for those (`ParamSubst.AgreeOn`) make the same type, and they add
the same types to the pool in the same order, whether the type is walked through or passed over
(`ParamSubst.AgreeOn.parallel_applyOrKeep`).  A map that is empty, or none at all, is no exception:
it gives nothing for any parameter.
-/

import Graft.Proofs.Parallel
import Graft.Proofs.Type.Outcome

namespace Graft

/-- A type that is not a parameter has the parameters of its parts. -/
theorem TypePool.params_unfold {pool : TypePool} {t : TypeId} {e : TypeEntry} (ho : pool.Ordered)
    (he : pool.entry t = .ok e) (hparam : ∀ name id, e.shape ≠ .param name id) :
    (pool.unfold t).params = e.shape.children.flatMap fun part => (pool.unfold part).params := by
  have hpositions : e.shape.positions .invariant = e.shape.children.map (·, .invariant) := by
    cases e.shape <;> simp [TypeShape.positions, TypeShape.children, Variance.flip]
  rw [TypeTree.params, occurrences_unfold ho he hparam, hpositions, List.flatMap_map,
    List.map_flatMap]
  rfl

namespace ParamSubst

open TypePool

variable {s s' : ParamSubst} {subst subst' : Option ParamSubst} {pool : TypePool}
  {t : TypeId}

/-- What is given for a type parameter; nothing if there is no substitution. -/
def given (subst : Option ParamSubst) (pool : TypePool) (name : Name) (id : Nat) :
    Option Projection :=
  subst.bind fun s => s.projection? pool name id

/-- The same is given for every parameter that occurs in the type. -/
def AgreeOn (subst subst' : Option ParamSubst) (pool : TypePool) (t : TypeId) : Prop :=
  ∀ p ∈ (pool.unfold t).params, given subst pool p.1 p.2 = given subst' pool p.1 p.2

instance (subst subst' : Option ParamSubst) (pool : TypePool) (t : TypeId) :
    Decidable (AgreeOn subst subst' pool t) :=
  inferInstanceAs (Decidable (∀ p ∈ (pool.unfold t).params, _ = _))

/-- A substitution that replaces nothing gives no parameter a tree. -/
theorem given_eq_none_of_empty (pool : TypePool) (name : Name) (id : Nat) :
    given (some {}) pool name id = none := by
  show (pool.find? _).bind _ = none
  rw [Option.bind_eq_none_iff]
  exact fun _ _ => rfl

/-- No substitution gives as much as the empty one. -/
theorem given_getD (subst : Option ParamSubst) (pool : TypePool) (name : Name) (id : Nat) :
    given (some (subst.getD {})) pool name id = given subst pool name id := by
  cases subst with
  | none => exact given_eq_none_of_empty pool name id
  | some s => rfl

/-- Substitutions that agree on a composite type do so on its parts. -/
theorem AgreeOn.part (h : AgreeOn subst subst' pool t) (ho : pool.Ordered) {e : TypeEntry}
    (he : pool.entry t = .ok e) (hparam : ∀ name id, e.shape ≠ .param name id) {part : TypeId}
    (hpart : part ∈ e.shape.children) : AgreeOn subst subst' pool part := fun p hp =>
  h p (by
    rw [params_unfold ho he hparam]
    exact List.mem_flatMap.2 ⟨part, hpart, hp⟩)

/-- Substitutions that agree on a parameter have the same for its handle. -/
theorem AgreeOn.get?_eq (h : AgreeOn (some s) (some s') pool t) (hsound : pool.Sound)
    {e : TypeEntry} (he : pool.entry t = .ok e) {name : Name} {id : Nat}
    (hparam : e.shape = .param name id) : s.get? t = s'.get? t := by
  have hread : ∀ s : ParamSubst, given (some s) pool name id = s.get? t := by
    intro s
    show (pool.find? (.param name id)).bind s.get? = s.get? t
    rw [← hparam, find?_of_entry he]
    rfl
  rw [← hread s, ← hread s']
  refine h (name, id) ?_
  rw [unfold_param hsound.ordered he hparam]
  exact .head _

/-! ### Walking through a type -/

/-- The pools are the same and have grown from the given one. -/
def Along (pool : TypePool) (p p' : TypePool) : Prop := p = p' ∧ Grown pool p

/-- An action that can be repeated does the same as itself. -/
theorem parallel_of_steady {α : Type} {m : SubstM α} (hm : m.Steady) :
    Parallel (Along pool) m m fun _ => True := by
  rintro p _ ⟨rfl, hg⟩
  have hend := hm p
  cases hrun : m p with
  | ok a later => exact .ok trivial ⟨rfl, hg.trans (hend.ok_of_eq hrun).1⟩
  | error e later => exact .error ⟨rfl, hg.trans (hend.err_of_eq hrun).1⟩

/-- An entry stays as the pool grows. -/
theorem parallel_entry {e : TypeEntry} (he : pool.entry t = .ok e) :
    Parallel (Along pool) (SubstM.entry t) (SubstM.entry t) (· = e) := by
  rintro p _ ⟨rfl, hg⟩
  rw [SubstM.entry, hg.extends_.entry he]
  exact .ok rfl ⟨rfl, hg⟩

/-- Maps that agree on a type meet the same parameters in it. -/
theorem AgreeOn.parallel_applyBelow (hsound : pool.Sound) (bound : Nat)
    (h : AgreeOn (some s) (some s') pool t) (ht : pool.Has t) (v : Variance) :
    Parallel (Along pool) (s.applyBelow bound t v) (s'.applyBelow bound t v) fun _ => True := by
  induction bound generalizing t v with
  | zero => exact Parallel.throw _
  | succ bound ih =>
    obtain ⟨e, he⟩ := has_iff.1 ht
    rw [applyBelow, applyBelow]
    refine (parallel_entry he).bind ?_
    rintro e rfl
    split
    · exact Parallel.pure trivial
    · split
      · rename_i name id hparam
        rw [replace, h.get?_eq hsound he hparam, ← replace]
        exact parallel_of_steady (s'.steady_replace t v)
      · rename_i hparam
        rw [TypeShape.traverse_eq, TypeShape.traverse_eq, bind_map_left, bind_map_left]
        refine (Parallel.mapM fun part hpart => ?_).bind fun parts _ => ?_
        · have hchild : part.1 ∈ e.shape.children := by
            rw [← TypeShape.map_fst_positions v]
            exact List.mem_map_of_mem hpart
          exact ih (h.part hsound.ordered he hparam hchild) (hsound.ordered.has_part he hchild)
            part.2
        · split
          · exact Parallel.pure trivial
          · exact parallel_of_steady (SubstM.steady_intern _)

/-! ### Passing a type over -/

/-- Passing a type over comes to the same as walking through it with the empty map. -/
theorem apply_eq_applyBelow (hsound : pool.Sound) (ht : pool.Has t) (v : Variance) :
    s.apply t v pool = s.applyBelow (t.raw + 1) t v pool := by
  rw [apply]
  split
  · rename_i hempty
    obtain rfl : s = {} := congrArg ParamSubst.mk (List.isEmpty_iff.1 hempty)
    have hnone : ∀ name id, projection? {} pool name id = none := given_eq_none_of_empty pool
    have hknown : ∀ e ∈ ParamSubst.entries {}, pool.Has e.2.ty := fun e he =>
      absurd he List.not_mem_nil
    have hends := replaces_applyBelow hsound hknown _ (Nat.lt_succ_self t.raw) ht v
    have hself : replaced {} pool t = pool.unfold t :=
      TypeTree.replace_eq_self (v := v) fun o _ => by rw [trees, hnone, Option.map_none]
    have hfits : Fits {} pool t v := by
      intro o _ p hp
      rw [hnone] at hp
      cases hp
    cases hrun : applyBelow {} (t.raw + 1) t v pool with
    | ok r pool' =>
      obtain ⟨rfl, rfl⟩ := (hends.ok_of_eq hrun).2.2.2.2 hself
      rfl
    | error e pool' => exact absurd hfits (hends.err_of_eq hrun).2.2
  · rfl

variable {σ : Type}

/-- What is none gives as little as what is empty. -/
theorem applyOrKeep_getD (subst : Option ParamSubst) (t : TypeId) :
    (Substitutor.applyOrKeep (substitutor? subst) t : EStateM _ (TypePool × σ) _) =
      Substitutor.applyOrKeep (substitutor? (some (subst.getD {}))) t := by
  cases subst <;> rfl

/-- **Maps that give the same for the parameters of a type do the same with it,** one of them
being empty or there being none. -/
theorem AgreeOn.parallel_applyOrKeep (h : AgreeOn subst subst' pool t) (hsound : pool.Sound)
    (ht : pool.Has t) :
    Parallel (fun s s' : TypePool × σ => s.2 = s'.2 ∧ Along pool s.1 s'.1)
      (Substitutor.applyOrKeep (substitutor? subst) t)
      (Substitutor.applyOrKeep (substitutor? subst') t) fun _ => True := by
  have hagree : AgreeOn (some (subst.getD {})) (some (subst'.getD {})) pool t := by
    intro p hp
    rw [given_getD, given_getD]
    exact h p hp
  rintro ⟨p, memory⟩ ⟨_, _⟩ ⟨rfl, rfl, hg⟩
  have hend := hagree.parallel_applyBelow hsound (t.raw + 1) ht .invariant p p ⟨rfl, hg⟩
  rw [applyOrKeep_getD, applyOrKeep_getD subst', applyOrKeep_some, applyOrKeep_some,
    apply_eq_applyBelow (hg.sound hsound) (hg.extends_.has ht),
    apply_eq_applyBelow (hg.sound hsound) (hg.extends_.has ht)]
  revert hend
  generalize (subst.getD {}).applyBelow (t.raw + 1) t .invariant p = r
  generalize (subst'.getD {}).applyBelow (t.raw + 1) t .invariant p = r'
  rintro (⟨-, hstate⟩ | ⟨hstate⟩)
  · exact .ok trivial ⟨rfl, hstate⟩
  · rename_i e _ _
    cases e with
    | conflict => exact .ok trivial ⟨rfl, hstate⟩
    | unallocated u => exact .error ⟨rfl, hstate⟩

end ParamSubst

end Graft
