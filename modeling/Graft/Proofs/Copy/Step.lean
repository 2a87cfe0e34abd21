/-
# What a copy can do

A copy does five things to its state (`CopyJob.Step`): it substitutes a type, takes
a generated name, adds a record, completes a record that it has added, and records
that one symbol is the copy of another.  Whatever is copied and however the copy
ends, its run is a chain of such steps (`Copier.actions_steps`).  What every step
keeps therefore holds after every copy, failed ones included.
-/

import Graft.Copy.Copier
import Graft.Proofs.Copy.Map
import Graft.Proofs.Outcome
import Graft.Proofs.Symbol.Records
import Graft.Proofs.Tree.Children
import Mathlib.Logic.Relation

namespace Graft

variable {σ α β : Type} {k : Kind}

/-- The state with other symbols. -/
def CopyState.withSymbols (s : CopyState σ) (symbols : SymbolTable) : CopyState σ :=
  { s with program := { s.program with symbols } }

/-- A record that is there is read. -/
theorem CopyM.record_of_some {s : CopyState σ} {id : SymbolId k} {r : Record k}
    (h : s.program.symbols.get? id = some r) : CopyM.record id s = .ok r s := by
  rw [record, SymbolTable.get, h]

/-- A record that is not there stops the copy. -/
theorem CopyM.record_of_none {s : CopyState σ} {id : SymbolId k}
    (h : s.program.symbols.get? id = none) :
    CopyM.record id s = .error (.unallocated (.symbol id.symbol)) s := by
  rw [record, SymbolTable.get, h]

namespace CopyJob

variable (job : CopyJob σ)

/-- One thing that a copy does to its state.  Beside the state stand the symbols
that it has added and not recorded yet, the latest first. -/
inductive Step : List Symbol × CopyState σ → List Symbol × CopyState σ → Prop
  | substitute {pending : List Symbol} {s s' : CopyState σ} (t : TypeId)
      (h : Leads (job.substitute t) s s') :
      Step (pending, s) (pending, s')
  | name {pending : List Symbol} {s s' : CopyState σ} (base : Name)
      (h : Leads (job.freshName base) s s') :
      Step (pending, s) (pending, s')
  | mint {pending : List Symbol} {s : CopyState σ} {k : Kind} (r : Record k) :
      Step (pending, s) (⟨k, s.program.symbols.count k⟩ :: pending,
        s.withSymbols (s.program.symbols.add r).2)
  | complete {pending : List Symbol} {s : CopyState σ} {k : Kind} (id : SymbolId k)
      (f : Record k → Record k)
      (h : id.symbol ∈ pending ∨ ∃ a, s.map.copyOf? a = some id.symbol) :
      Step (pending, s) (pending, s.withSymbols (s.program.symbols.modify id f))
  | register {pending : List Symbol} {s : CopyState σ} {k : Kind} [k.Copied]
      (id copy : SymbolId k) {map : CopyMap} (h : s.map.insert id copy = .ok map) :
      Step (copy.symbol :: pending, s) (pending, { s with map })

/-- Any number of steps. -/
abbrev Steps : List Symbol × CopyState σ → List Symbol × CopyState σ → Prop :=
  Relation.ReflTransGen job.Step

/-- Substituting a type leaves the symbols, the names and the map alone. -/
theorem substitute_frame (t : TypeId) (s : CopyState σ) :
    Ends (job.substitute t) s
      (fun _ s' => ∃ pool memory, s' = { s with program := { s.program with pool }, memory })
      (fun _ s' => ∃ pool memory, s' = { s with program := { s.program with pool }, memory }) := by
  unfold Ends substitute
  dsimp only
  cases Substitutor.applyOrKeep job.substitutor t (s.program.pool, s.memory) with
  | ok t' u => exact ⟨u.1, u.2, rfl⟩
  | error e u => exact ⟨u.1, u.2, rfl⟩

/-- Taking a name leaves everything but the names alone. -/
theorem freshName_frame (base : Name) (s : CopyState σ) :
    Ends (job.freshName base) s
      (fun _ s' => ∃ supply, s' = { s with program := { s.program with supply } })
      (fun _ s' => ∃ supply, s' = { s with program := { s.program with supply } }) := by
  unfold Ends freshName
  dsimp only
  cases job.scheme.fresh base s.program.supply with
  | ok name supply => exact ⟨supply, rfl⟩
  | error e supply => exact ⟨supply, rfl⟩

variable {job}

/-- A copy that is recorded stays recorded. -/
theorem Steps.copyOf? {u v : List Symbol × CopyState σ} (h : job.Steps u v) {a c : Symbol}
    (ha : u.2.map.copyOf? a = some c) : v.2.map.copyOf? a = some c := by
  induction h with
  | refl => exact ha
  | tail _ step ih =>
    cases step with
    | substitute t h =>
      obtain ⟨pool, memory, rfl⟩ := (job.substitute_frame t _).of_leads h
      exact ih
    | name base h =>
      obtain ⟨supply, rfl⟩ := (job.freshName_frame base _).of_leads h
      exact ih
    | mint r => exact ih
    | complete id f h => exact ih
    | register id copy h =>
      rw [CopyMap.copyOf?_insert h, if_neg]
      · exact ih
      · rintro rfl
        rw [CopyMap.copyOf?_of_insert h] at ih
        cases ih

/-! ### Runs are chains of steps -/

/-- Every run of the action is a chain of steps.  `after` says what is pending
when it has given a value. -/
def Chains (job : CopyJob σ) (m : CopyM σ α) (pending : List Symbol) (after : α → List Symbol) :
    Prop :=
  ∀ s, Ends m s (fun a s' => job.Steps (pending, s) (after a, s'))
    (fun _ s' => ∃ rest, job.Steps (pending, s) (rest, s'))

variable {p q : List Symbol}

/-- To return a value is a chain of no steps. -/
theorem chains_pure (a : α) : job.Chains (pure a) p fun _ => p := fun _ => .refl

/-- Two chains make one chain. -/
theorem Chains.bind {m : CopyM σ α} {f : α → CopyM σ β} {q : α → List Symbol}
    {r : β → List Symbol} (hm : job.Chains m p q) (hf : ∀ a, job.Chains (f a) (q a) r) :
    job.Chains (m >>= f) p r := by
  intro s
  refine Ends.bind ((hm s).imp (fun a s' h => ?_) fun _ _ h => h)
  refine (hf a s').imp (fun b s'' h' => h.trans h') fun e s'' h' => ?_
  obtain ⟨rest, h'⟩ := h'
  exact ⟨rest, h.trans h'⟩

/-- Chains over a list make one chain. -/
theorem Chains.mapM {f : α → CopyM σ β} {xs : List α}
    (hf : ∀ x ∈ xs, job.Chains (f x) p fun _ => p) : job.Chains (xs.mapM f) p fun _ => p := by
  induction xs with
  | nil => exact chains_pure []
  | cons x xs ih =>
    rw [List.mapM_cons]
    exact (hf x (.head _)).bind fun _ =>
      (ih fun y hy => hf y (.tail _ hy)).bind fun _ => chains_pure _

/-- A chain on a value that may be missing is a chain. -/
theorem Chains.option_mapM {f : α → CopyM σ β} (hf : ∀ a, job.Chains (f a) p fun _ => p)
    (x : Option α) : job.Chains (x.mapM f) p fun _ => p := by
  cases x with
  | none => exact chains_pure _
  | some x => exact (hf x).bind fun _ => chains_pure _

/-- Chains over a list, without values, make one chain. -/
theorem Chains.forM {f : α → CopyM σ PUnit} {xs : List α}
    (hf : ∀ x ∈ xs, job.Chains (f x) p fun _ => p) : job.Chains (ForM.forM xs f) p fun _ => p := by
  induction xs with
  | nil => exact chains_pure _
  | cons x xs ih =>
    rw [List.forM_cons]
    exact (hf x (.head _)).bind fun _ => ih fun y hy => hf y (.tail _ hy)

open CopyM

/-- To reject a tree is a chain of no steps, and ends with no value. -/
theorem chains_reject (e : Rejection) {q : α → List Symbol} :
    job.Chains (reject e : CopyM σ α) p q := fun _ => ⟨p, .refl⟩

/-- What would come after a rejection is not done. -/
theorem chains_reject_bind (e : Rejection) (f : α → CopyM σ β) {q : β → List Symbol} :
    job.Chains (reject e >>= f) p q := fun _ => ⟨p, .refl⟩

/-- To read the copies is a chain of no steps. -/
theorem chains_copies : job.Chains copies p fun _ => p := fun _ => .refl

/-- To read a record is a chain of no steps. -/
theorem chains_record (id : SymbolId k) : job.Chains (record id) p fun _ => p := by
  intro s
  cases h : s.program.symbols.get? id with
  | some r => exact Ends.of_eq_ok (record_of_some h) .refl
  | none => exact Ends.of_eq_error (record_of_none h) ⟨p, .refl⟩

/-- To substitute is a chain of one step. -/
theorem chains_substitute (t : TypeId) : job.Chains (job.substitute t) p fun _ => p := by
  intro s
  unfold Ends
  split
  · rename_i h
    exact .single (.substitute t (Ends.leads_of_ok h))
  · rename_i h
    exact ⟨p, .single (.substitute t (Ends.leads_of_error h))⟩

/-- To draw a name is a chain of one step. -/
theorem chains_freshName (base : Name) : job.Chains (job.freshName base) p fun _ => p := by
  intro s
  unfold Ends
  split
  · rename_i h
    exact .single (.name base (Ends.leads_of_ok h))
  · rename_i h
    exact ⟨p, .single (.name base (Ends.leads_of_error h))⟩

/-- To make a record is one step, and leaves the record pending. -/
theorem chains_mint (r : Record k) : job.Chains (mint r) p fun id => id.symbol :: p :=
  fun _ => .single (.mint r)

/-- To register a pending record is one step. -/
theorem chains_register [k.Copied] (id copy : SymbolId k) :
    job.Chains (register id copy) (copy.symbol :: p) fun _ => p := by
  intro s
  unfold Ends register
  cases h : s.map.insert id copy with
  | ok map => exact .single (.register id copy h)
  | error e => exact ⟨copy.symbol :: p, .refl⟩

/-- To set the parameters of a pending record is one step. -/
theorem chains_setParamList {callable : Callable} (h : callable.symbol ∈ p)
    (params : List ParamId) : job.Chains (setParamList callable params) p fun _ => p := by
  intro s
  cases callable with
  | fn id => exact .single (.complete id _ (.inl h))
  | ctor id => exact .single (.complete id _ (.inl h))

/-! ### Opening a class -/

/-- Make the supertypes of the copy of a class. -/
def copySupertypes (job : CopyJob σ) (r : ClassRecord) : CopyM σ (List TypeId) :=
  match job.supertypes with
  | .substitute => r.supertypes.mapM job.substitute
  | .top => pure [.any]

/-- Add and record the copy of a class whose supertypes are made. -/
def mintClass (job : CopyJob σ) (cls : ClassId) (r : ClassRecord) (supertypes : List TypeId) :
    CopyM σ (ClassRecord × ClassId) := do
  let name ← job.freshName r.name
  let copy ← mint (k := .cls)
    { r with name, owner := .fn job.target, supertypes, constructors := [], primary := none }
  register cls copy
  return (r, copy)

/-- A class is met in three steps: its record, its supertypes and its copy. -/
theorem openClass_eq (job : CopyJob σ) (cls : ClassId) :
    job.openClass cls = (do
      let r ← record cls
      let supertypes ← job.copySupertypes r
      job.mintClass cls r supertypes) := by
  refine congrArg (record cls >>= ·) (funext fun r => ?_)
  rw [copySupertypes]
  cases job.supertypes <;> rfl

end CopyJob

end Graft
