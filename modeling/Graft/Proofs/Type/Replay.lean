/-
# Substituting again

What a substitution adds to the pool is there when it runs again.  In every pool
that extends the one it left, it ends as it did before and adds nothing
(`SubstM.Steady`, `ParamSubst.steady_apply`).  So the result of a substitution
can be read off the final pool of a run, whenever in the run it took place
(`ParamSubst.Settles`).
-/

import Graft.Proofs.Outcome
import Graft.Proofs.Type.Sound
import Graft.Type.Substitution

namespace Graft

/-- The pool grows, and in every pool that extends the one it leaves the action has the
same result, or conflicts again, and adds nothing. -/
def SubstM.Steady {α : Type} (m : SubstM α) : Prop :=
  ∀ pool, Ends m pool
    (fun a pool' => TypePool.Grown pool pool' ∧
      ∀ later, later.Extends pool' → m later = .ok a later)
    (fun e pool' => TypePool.Grown pool pool' ∧
      (e = .conflict → ∀ later, later.Extends pool' → m later = .error e later))

namespace SubstM

variable {α β : Type}

/-- To return a value is steady. -/
theorem steady_pure (a : α) : Steady (pure a) := fun pool => ⟨.refl pool, fun _ _ => rfl⟩

/-- To fail is steady. -/
theorem steady_throw (e : SubstFailure) : Steady (throw e : SubstM α) :=
  fun pool => ⟨.refl pool, fun _ _ _ => rfl⟩

/-- Two steady steps are steady together. -/
theorem Steady.bind {m : SubstM α} {f : α → SubstM β} (hm : Steady m) (hf : ∀ a, Steady (f a)) :
    Steady (m >>= f) := by
  intro pool
  cases h : m pool with
  | error e pool₁ =>
    obtain ⟨hg, hr⟩ := (hm pool).err_of_eq h
    refine Ends.of_eq_error (show EStateM.bind m f pool = .error e pool₁ by rw [EStateM.bind, h])
      ⟨hg, fun he later hl => ?_⟩
    show EStateM.bind m f later = _
    rw [EStateM.bind, hr he later hl]
  | ok a pool₁ =>
    obtain ⟨hg, hr⟩ := (hm pool).ok_of_eq h
    cases h' : f a pool₁ with
    | error e pool₂ =>
      obtain ⟨hg', hr'⟩ := (hf a pool₁).err_of_eq h'
      refine Ends.of_eq_error
        (show EStateM.bind m f pool = .error e pool₂ by rw [EStateM.bind, h]; exact h')
        ⟨hg.trans hg', fun he later hl => ?_⟩
      show EStateM.bind m f later = _
      rw [EStateM.bind, hr later (hg'.extends_.trans hl)]
      exact hr' he later hl
    | ok b pool₂ =>
      obtain ⟨hg', hr'⟩ := (hf a pool₁).ok_of_eq h'
      refine Ends.of_eq_ok
        (show EStateM.bind m f pool = .ok b pool₂ by rw [EStateM.bind, h]; exact h')
        ⟨hg.trans hg', fun later hl => ?_⟩
      show EStateM.bind m f later = _
      rw [EStateM.bind, hr later (hg'.extends_.trans hl)]
      exact hr' later hl

/-- Steady steps over a list are steady together. -/
theorem Steady.mapM {f : α → SubstM β} (hf : ∀ a, Steady (f a)) (xs : List α) :
    Steady (xs.mapM f) := by
  induction xs with
  | nil => exact steady_pure []
  | cons x xs ih =>
    rw [List.mapM_cons]
    exact (hf x).bind fun _ => ih.bind fun _ => steady_pure _

/-- An entry that is there stays; one that is not is no conflict. -/
theorem steady_entry (t : TypeId) : Steady (entry t) := by
  intro pool
  cases h : pool.entry t with
  | ok e =>
    refine Ends.of_eq_ok (show entry t pool = .ok e pool by rw [entry, h])
      ⟨.refl pool, fun later hl => ?_⟩
    rw [entry, hl.entry h]
  | error u =>
    exact Ends.of_eq_error (show entry t pool = .error (.unallocated u) pool by rw [entry, h])
      ⟨.refl pool, fun he => nomatch he⟩

/-- Interning is steady. -/
theorem steady_intern (shape : TypeShape) : Steady (intern shape) := by
  intro pool
  cases h : pool.intern shape with
  | ok r =>
    obtain ⟨t, pool'⟩ := r
    refine Ends.of_eq_ok (show intern shape pool = .ok t pool' by rw [intern, h])
      ⟨TypePool.intern_grown h, fun later hl => ?_⟩
    rw [intern, TypePool.intern_replay h hl]
  | error u =>
    exact Ends.of_eq_error
      (show intern shape pool = .error (.unallocated u) pool by rw [intern, h])
      ⟨.refl pool, fun he => nomatch he⟩

/-- The walk over a shape's parts is steady if what is done to each part is. -/
theorem steady_traverse {f : TypeId → Variance → SubstM TypeId} (hf : ∀ t v, Steady (f t v))
    (v : Variance) (shape : TypeShape) : Steady (shape.traverse f v) := by
  cases shape with
  | primitive p => exact steady_pure _
  | param name id => exact steady_pure _
  | list elem => exact (hf elem v).bind fun _ => steady_pure _
  | option inner => exact (hf inner v).bind fun _ => steady_pure _
  | map key value =>
    exact (hf key .invariant).bind fun _ => (hf value v).bind fun _ => steady_pure _
  | function params result =>
    exact (Steady.mapM (fun p => hf p v.flip) params).bind fun _ =>
      (hf result v).bind fun _ => steady_pure _
  | named name args =>
    exact (Steady.mapM (fun a => hf a .invariant) args).bind fun _ => steady_pure _

end SubstM

namespace ParamSubst

open SubstM

variable (s : ParamSubst)

/-- The replacement of a parameter is steady. -/
theorem steady_replace (param : TypeId) (v : Variance) : Steady (s.replace param v) := by
  unfold replace
  split
  · exact steady_pure _
  · split
    · exact steady_pure _
    · exact steady_throw _

/-- A substitution is steady, however far it is followed. -/
theorem steady_applyBelow (bound : Nat) (t : TypeId) (v : Variance) :
    Steady (s.applyBelow bound t v) := by
  induction bound generalizing t v with
  | zero => exact steady_throw _
  | succ bound ih =>
    rw [applyBelow]
    refine (steady_entry t).bind fun e => ?_
    split
    · exact steady_pure _
    · split
      · exact s.steady_replace t v
      · refine (steady_traverse ih v _).bind fun shape' => ?_
        split
        · exact steady_pure _
        · exact steady_intern _

/-- **A substitution can be repeated.**  In every larger pool it has the result it
had, or the conflict, and adds nothing. -/
theorem steady_apply (t : TypeId) (v : Variance) : Steady (s.apply t v) := by
  unfold apply
  split
  · exact steady_pure _
  · exact s.steady_applyBelow _ t v

/-- The substitutor of a map of type parameters, if there is one. -/
def substitutor? {σ : Type} (subst : Option ParamSubst) : Option (Substitutor σ) :=
  subst.map toSubstitutor

/-- What one substitution at an invariant position makes of a type in the given
pool: the result, or the type itself where there is none. -/
def outcome (subst : Option ParamSubst) (pool : TypePool) (t : TypeId) : TypeId :=
  match Substitutor.applyOrKeep (substitutor? subst) t (pool, ()) with
  | .ok t' _ => t'
  | .error _ _ => t

/-- One substitution of `t` at an invariant position gives `t'` in the given pool,
which has all types that this takes. -/
def Settles (subst : Option ParamSubst) (pool : TypePool) (t t' : TypeId) : Prop :=
  ∀ (σ : Type) (memory : σ),
    Substitutor.applyOrKeep (substitutor? subst) t (pool, memory) = .ok t' (pool, memory)

/-- The type that settles is the outcome of the substitution. -/
theorem Settles.outcome_eq {subst : Option ParamSubst} {pool : TypePool} {t t' : TypeId}
    (h : Settles subst pool t t') : outcome subst pool t = t' := by
  rw [outcome, h Unit ()]

/-- The substitutor of a copy with a substitution applies it, and fails where it conflicts. -/
theorem applyOrKeep_some {σ : Type} (t : TypeId) (pool : TypePool) (memory : σ) :
    Substitutor.applyOrKeep (substitutor? (some s)) t (pool, memory) =
      match s.apply t .invariant pool with
      | .ok t' pool' => .ok t' (pool', memory)
      | .error .conflict pool' => .ok t (pool', memory)
      | .error (.unallocated u) pool' => .error u (pool', memory) := by
  unfold Substitutor.applyOrKeep substitutor? toSubstitutor
  dsimp only [Option.map_some]
  cases s.apply t .invariant pool with
  | ok t' pool' => rfl
  | error e pool' => cases e <;> rfl

/-- **A type settles when it is substituted.**  The pool is only added to, and in
every pool that extends the one after it the substitution gives the same type. -/
theorem applyOrKeep_ends {σ : Type} (subst : Option ParamSubst) (t : TypeId) (pool : TypePool)
    (memory : σ) :
    Ends (Substitutor.applyOrKeep (substitutor? subst) t) (pool, memory)
      (fun t' s => s.2 = memory ∧ TypePool.Grown pool s.1 ∧
        ∀ later : TypePool, later.Extends s.1 → Settles subst later t t')
      (fun _ s => s.2 = memory ∧ TypePool.Grown pool s.1) := by
  cases subst with
  | none => exact ⟨rfl, .refl pool, fun later _ σ' memory' => rfl⟩
  | some s =>
    have heq := s.applyOrKeep_some t pool memory
    cases h : s.apply t .invariant pool with
    | ok t' pool' =>
      obtain ⟨hg, hr⟩ := (s.steady_apply t .invariant pool).ok_of_eq h
      rw [h] at heq
      refine Ends.of_eq_ok heq ⟨rfl, hg, fun later hl σ' memory' => ?_⟩
      rw [s.applyOrKeep_some t later memory', hr later hl]
    | error e pool' =>
      obtain ⟨hg, hr⟩ := (s.steady_apply t .invariant pool).err_of_eq h
      rw [h] at heq
      cases e with
      | conflict =>
        refine Ends.of_eq_ok heq ⟨rfl, hg, fun later hl σ' memory' => ?_⟩
        rw [s.applyOrKeep_some t later memory', hr rfl later hl]
      | unallocated u => exact Ends.of_eq_error heq ⟨rfl, hg⟩

end ParamSubst

end Graft
