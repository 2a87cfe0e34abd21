/-
# Types settle

Over a closed program, a substitution always gives a type, and it gives the same type
again in every later pool.  So what a copy makes of types can be said in terms of one
function, `ParamSubst.outcome` in the pool that the copy leaves behind, whenever the
types were substituted.  `CopyJob.Substitutes` says this of an action that does
nothing but to substitute types; it follows the way such actions are put together.
-/

import Graft.Proofs.Copy.Additions
import Graft.Proofs.Program.Closed

namespace Graft

open TypePool (Grown)
open ParamSubst (outcome Settles)

variable {σ α β γ : Type}

/-- The state with other types. -/
def CopyState.withPool (s : CopyState σ) (pool : TypePool) : CopyState σ :=
  { s with program := { s.program with pool } }

/-- A job over a closed program, under a map of type parameters, if any, whose
replacements the program has. -/
structure CopyJob.Over (job : CopyJob σ) (program : Program) (subst : Option ParamSubst) :
    Prop where
  closed : program.Closed
  within : ∀ s ∈ subst, s.Within program.pool
  substitutor : job.substitutor = ParamSubst.substitutor? subst

namespace CopyJob

variable {job : CopyJob σ} {program : Program} {subst : Option ParamSubst} {copies : CopyMap}

/-- The action substitutes the types `ts` and does nothing else.  Its value is what
`value` gives for the outcomes of the substitution in any later pool, in which all of
`ts` settle. -/
def Substitutes (program : Program) (subst : Option ParamSubst) (copies : CopyMap)
    (m : CopyM σ α) (ts : List TypeId) (value : (TypeId → TypeId) → α) : Prop :=
  ∀ s, s.map = copies → Grown program.pool s.program.pool →
    Ends m s
      (fun a s' => ∃ pool, s' = s.withPool pool ∧ Grown s.program.pool pool ∧
        ∀ later : TypePool, later.Extends pool →
          a = value (outcome subst later) ∧ ∀ t ∈ ts, Settles subst later t (outcome subst later t))
      (fun _ _ => False)

/-- To return a value substitutes no types. -/
theorem substitutes_pure (a : α) :
    Substitutes program subst copies (pure a : CopyM σ α) [] fun _ => a :=
  fun s _ _ => ⟨s.program.pool, rfl, .refl _, fun _ _ => ⟨rfl, nofun⟩⟩

/-- One substitution. -/
theorem Over.substitutes_substitute (h : job.Over program subst) {t : TypeId}
    (ht : program.pool.Has t) :
    Substitutes program subst copies (job.substitute t) [t] fun τ => τ t := by
  intro s _ hs
  have htotal : Ends (job.substitute t) s (fun _ _ => True) (fun _ _ => False) := by
    have happly := ParamSubst.applyOrKeep_total
      (fun s' hs' => (h.within s' hs').extends_ hs.extends_) (hs.extends_.has ht)
      (hs.ordered h.closed.ordered) s.memory
    unfold Ends substitute
    dsimp only
    rw [h.substitutor]
    cases ha : Substitutor.applyOrKeep (ParamSubst.substitutor? subst) t
        (s.program.pool, s.memory) with
    | ok t' u => trivial
    | error e u => exact happly.err_of_eq ha
  refine ((substitute_ends h.substitutor t s).and htotal).imp ?_ fun _ _ h => h.2
  rintro t' s' ⟨⟨pool, rfl, hp, hsettles⟩, -⟩
  refine ⟨pool, rfl, hp, fun later hl => ?_⟩
  have ho := (hsettles later hl).outcome_eq
  refine ⟨ho.symm, fun u hu => ?_⟩
  obtain rfl := List.mem_singleton.1 hu
  rw [ho]
  exact hsettles later hl

/-- Two actions substitute the types of both. -/
theorem Substitutes.bind {m : CopyM σ α} {f : α → CopyM σ β} {ts us : List TypeId}
    {value : (TypeId → TypeId) → α} {value' : α → (TypeId → TypeId) → β}
    (hm : Substitutes program subst copies m ts value)
    (hf : ∀ a, Substitutes program subst copies (f a) us (value' a)) :
    Substitutes program subst copies (m >>= f) (ts ++ us) fun τ => value' (value τ) τ := by
  intro s hmap hs
  refine Ends.bind ((hm s hmap hs).imp (fun a s₁ h₁ => ?_) fun _ _ h => h)
  obtain ⟨pool₁, rfl, hp₁, hv₁⟩ := h₁
  refine (hf a (s.withPool pool₁) hmap (hs.trans hp₁)).imp (fun b s₂ h₂ => ?_) fun _ _ h => h
  obtain ⟨pool₂, rfl, hp₂, hv₂⟩ := h₂
  refine ⟨pool₂, rfl, hp₁.trans hp₂, fun later hl => ?_⟩
  obtain ⟨ha, hts⟩ := hv₁ later (hp₂.extends_.trans hl)
  obtain ⟨hb, hus⟩ := hv₂ later hl
  refine ⟨by rw [hb, ha], fun t ht => ?_⟩
  rcases List.mem_append.1 ht with ht | ht
  · exact hts t ht
  · exact hus t ht

/-- A function of the value of an action that substitutes types. -/
theorem Substitutes.map {m : CopyM σ α} {ts : List TypeId} {value : (TypeId → TypeId) → α}
    (hm : Substitutes program subst copies m ts value) (f : α → β) :
    Substitutes program subst copies (f <$> m) ts fun τ => f (value τ) := by
  have h := hm.bind fun a => substitutes_pure (f a)
  rw [List.append_nil] at h
  rw [map_eq_pure_bind]
  exact h

/-- Actions over a list substitute the types of each, in order. -/
theorem Substitutes.mapM {f : γ → CopyM σ α} {ts : γ → List TypeId}
    {value : γ → (TypeId → TypeId) → α} (xs : List γ)
    (hf : ∀ x ∈ xs, Substitutes program subst copies (f x) (ts x) (value x)) :
    Substitutes program subst copies (xs.mapM f) (xs.flatMap ts) fun τ =>
      xs.map fun x => value x τ := by
  induction xs with
  | nil => exact substitutes_pure []
  | cons x xs ih =>
    have h := (hf x (.head _)).bind fun a =>
      (ih fun y hy => hf y (.tail _ hy)).bind fun as => substitutes_pure (a :: as)
    rw [List.append_nil] at h
    rw [List.mapM_cons]
    exact h

/-- An action on a value that may be missing substitutes the types of that value. -/
theorem Substitutes.option_mapM {f : γ → CopyM σ α} {ts : γ → List TypeId}
    {value : γ → (TypeId → TypeId) → α} (x : Option γ)
    (hf : ∀ y ∈ x, Substitutes program subst copies (f y) (ts y) (value y)) :
    Substitutes program subst copies (x.mapM f) (x.elim [] ts) fun τ =>
      x.map fun y => value y τ := by
  cases x with
  | none => exact substitutes_pure none
  | some y => exact (hf y rfl).map some

/-- Once the copies are read, the action knows them. -/
theorem Substitutes.of_copies {f : CopyMap → CopyM σ α} {ts : List TypeId}
    {value : (TypeId → TypeId) → α}
    (hf : Substitutes program subst copies (f copies) ts value) :
    Substitutes program subst copies (CopyM.copies >>= f) ts value := by
  intro s hcopies hs
  refine Ends.bind (Ends.of_eq_ok (show CopyM.copies s = .ok copies s from hcopies ▸ rfl) ?_)
  exact hf s hcopies hs

/-- The types may be given in any order. -/
theorem Substitutes.of_mem {m : CopyM σ α} {ts us : List TypeId}
    {value : (TypeId → TypeId) → α} (h : Substitutes program subst copies m ts value)
    (hus : ∀ t ∈ us, t ∈ ts) : Substitutes program subst copies m us value := by
  intro s hcopies hs
  refine (h s hcopies hs).imp (fun a s' => ?_) fun _ _ h => h
  rintro ⟨pool, rfl, hp, hv⟩
  refine ⟨pool, rfl, hp, fun later hl => ?_⟩
  obtain ⟨ha, hts⟩ := hv later hl
  exact ⟨ha, fun t ht => hts t (hus t ht)⟩

end CopyJob

end Graft
