/-
# Every copy is a chain of steps

The actions of a copy are walked through once, in the order they are put together,
and each is seen to be a chain of steps (`Copier.actions_steps`).  A callable stays
pending while its parameters are added and recorded; a class is recorded before its
members are visited, and is completed under the copy that was recorded for it.
-/

import Graft.Proofs.Copy.Step

namespace Graft

variable {σ : Type}

namespace CopyJob

open CopyM

variable (job : CopyJob σ) {p : List Symbol}

/-- The copy of parameters is a chain of steps. -/
theorem chains_mintParams (params : List ParamId) (owner : Callable) :
    job.Chains (job.mintParams params owner) p fun _ => p := by
  refine Chains.mapM fun param _ => ?_
  refine (chains_record param).bind fun r => ?_
  refine (chains_substitute r.ty).bind fun ty => ?_
  refine (Chains.option_mapM chains_substitute r.varargElement).bind fun varargElement => ?_
  refine (chains_mint _).bind fun copy => ?_
  exact (chains_register param copy).bind fun _ => chains_pure copy

/-- A callable is completed with its parameters and then recorded. -/
theorem chains_finish {k : Kind} [k.Copied] (id copy : SymbolId k) (callable : Callable)
    (h : callable.symbol = copy.symbol) (params : List ParamId) :
    job.Chains (do setParamList callable (← job.mintParams params callable); register id copy)
      (copy.symbol :: p) fun _ => p := by
  refine (job.chains_mintParams params callable).bind fun copies => ?_
  exact (chains_setParamList (h ▸ .head _) copies).bind fun _ => chains_register id copy

/-- The copy of a function is a chain of steps. -/
theorem chains_mintFunction (function : FunctionId) :
    job.Chains (job.mintFunction function) p fun _ => p := by
  refine (chains_record function).bind fun r => ?_
  dsimp only
  split
  · exact chains_reject_bind _ _
  · refine (chains_freshName r.name).bind fun name => ?_
    refine (chains_substitute r.returnType).bind fun returnType => ?_
    refine (Chains.option_mapM chains_substitute r.extensionReceiver).bind fun receiver => ?_
    refine (chains_mint _).bind fun copy => ?_
    exact job.chains_finish function copy (.fn copy) rfl r.params

/-- The copy of a constructor is a chain of steps. -/
theorem chains_mintConstructor (constructor : ConstructorId) :
    job.Chains (job.mintConstructor constructor) p fun _ => p := by
  refine (chains_record constructor).bind fun r => ?_
  refine chains_copies.bind fun map => ?_
  split
  · dsimp only
    split
    · exact chains_reject_bind _ _
    · refine (chains_substitute r.returnType).bind fun returnType => ?_
      refine (Chains.option_mapM chains_substitute r.dispatchReceiver).bind fun receiver => ?_
      refine (chains_mint _).bind fun copy => ?_
      exact job.chains_finish constructor copy (.ctor copy) rfl r.params
  · exact chains_reject _

/-- The copy of an operator is a chain of steps. -/
theorem chains_mintInvoke (invoke : FunctionId) :
    job.Chains (job.mintInvoke invoke) p fun _ => p := by
  refine (chains_record invoke).bind fun r => ?_
  refine (chains_substitute r.returnType).bind fun returnType => ?_
  refine (chains_mint _).bind fun copy => ?_
  exact job.chains_finish invoke copy (.fn copy) rfl r.params

/-- The copy of a variable is a chain of steps. -/
theorem chains_mintVariable (variableId : VariableId) :
    job.Chains (job.mintVariable variableId) p fun _ => p := by
  refine (chains_record variableId).bind fun r => ?_
  refine (chains_freshName r.name).bind fun name => ?_
  refine (chains_substitute r.ty).bind fun ty => ?_
  refine (chains_mint _).bind fun copy => ?_
  exact chains_register variableId copy

/-- The copy of what a node declares itself is a chain of steps. -/
theorem chains_mintOwn (n : Node) : job.Chains (job.mintOwn n) p fun _ => p := by
  unfold mintOwn
  split
  · exact job.chains_mintFunction _
  · exact job.chains_mintConstructor _
  · exact job.chains_mintVariable _
  · refine (chains_record _).bind fun r => chains_copies.bind fun map => ?_
    split
    · exact job.chains_mintInvoke _
    · exact chains_pure _
  · exact chains_pure _

/-! ### Classes -/

/-- The copy of the supertypes of a class is a chain of steps. -/
theorem chains_copySupertypes (r : ClassRecord) :
    job.Chains (job.copySupertypes r) p fun _ => p := by
  unfold copySupertypes
  split
  · exact Chains.mapM fun t _ => chains_substitute t
  · exact chains_pure _

/-- The copy of a class, when it is met, is a chain of steps. -/
theorem chains_openClass (cls : ClassId) :
    job.Chains (job.openClass cls) p fun _ => p := by
  rw [openClass_eq]
  refine (chains_record cls).bind fun r => (job.chains_copySupertypes r).bind fun supertypes => ?_
  refine (chains_freshName r.name).bind fun name => ?_
  refine (chains_mint _).bind fun copy => ?_
  exact (chains_register cls copy).bind fun _ => chains_pure _

/-- What was registered last is the copy. -/
theorem register_copyOf? {k : Kind} [k.Copied] (id copy : SymbolId k) (s : CopyState σ) :
    Ends (register id copy) s (fun _ s' => s'.map.copyOf? id.symbol = some copy.symbol)
      (fun _ _ => True) := by
  unfold Ends register
  cases h : s.map.insert id copy with
  | ok map =>
    show map.copyOf? id.symbol = some copy.symbol
    rw [CopyMap.copyOf?_insert h, if_pos rfl]
  | error e => trivial

/-- The copy that a class is given is recorded for it. -/
theorem openClass_copyOf? (cls : ClassId) (s : CopyState σ) :
    Ends (job.openClass cls) s
      (fun opened s' => s'.map.copyOf? cls.symbol = some opened.2.symbol) (fun _ _ => True) := by
  rw [openClass_eq]
  refine Ends.bind (Ends.trivial.imp (fun r s₁ _ => ?_) fun _ _ h => h)
  refine Ends.bind (Ends.trivial.imp (fun supertypes s₂ _ => ?_) fun _ _ h => h)
  refine Ends.bind (Ends.trivial.imp (fun name s₃ _ => ?_) fun _ _ h => h)
  refine Ends.bind (Ends.trivial.imp (fun copy s₄ _ => ?_) fun _ _ h => h)
  exact Ends.bind ((register_copyOf? cls copy s₄).imp (fun _ _ h => h) fun _ _ h => h)

/-- To read the copy of a constructor is a chain of steps. -/
theorem chains_copiedConstructor (cls : ClassId) (constructor : ConstructorId) :
    job.Chains (copiedConstructor cls constructor) p fun _ => p := by
  refine chains_copies.bind fun map => ?_
  split
  · exact chains_pure _
  · exact chains_reject _

/-- A class is closed by a step if its copy is the one that is recorded. -/
theorem closeClass_steps (cls : ClassId) (r : ClassRecord) (copy : ClassId) {s : CopyState σ}
    (h : s.map.copyOf? cls.symbol = some copy.symbol) :
    Ends (closeClass cls r copy) s (fun _ s' => job.Steps (p, s) (p, s'))
      (fun _ s' => ∃ rest, job.Steps (p, s) (rest, s')) := by
  refine Ends.bind ((Chains.mapM (fun c _ => job.chains_copiedConstructor cls c) s).imp
    (fun constructors s₁ h₁ => ?_) fun _ _ h => h)
  refine Ends.bind ((Chains.option_mapM (job.chains_copiedConstructor cls) r.primary s₁).imp
    (fun primary s₂ h₂ => ?_) fun _ _ ⟨rest, h₂⟩ => ⟨rest, h₁.trans h₂⟩)
  refine (h₁.trans h₂).tail (.complete copy _ (.inr ⟨cls.symbol, ?_⟩))
  exact Steps.copyOf? (h₁.trans h₂) h

/-- **Copying declarations is a chain of steps.** -/
theorem chains_copyDeclarations (n : Node) :
    job.Chains (job.copyDeclarations n) p fun _ => p := by
  induction n using Node.induction_children with
  | step n ih =>
    have below : job.Chains (ForM.forM n.children job.copyDeclarations) p fun _ => p :=
      Chains.forM ih
    rw [copyDeclarations_eq]
    split
    · rename_i cls members
      intro s
      refine Ends.bind (((job.chains_openClass cls s).and (job.openClass_copyOf? cls s)).imp
        (fun opened s₁ h₁ => ?_) fun _ _ h => h.1)
      refine Ends.bind ((below s₁).imp (fun _ s₂ h₂ => ?_)
        fun _ _ ⟨rest, h₂⟩ => ⟨rest, h₁.1.trans h₂⟩)
      refine (job.closeClass_steps cls opened.1 opened.2 (Steps.copyOf? h₂ h₁.2)).imp
        (fun _ s₃ h₃ => (h₁.1.trans h₂).trans h₃) fun _ _ ⟨rest, h₃⟩ => ⟨rest, ?_⟩
      exact (h₁.1.trans h₂).trans h₃
    · exact (job.chains_mintOwn n).bind fun _ => below

/-! ### The second pass -/

/-- The substitution in type arguments is a chain of steps. -/
theorem chains_substituteArgs (args : Option TypeArguments) :
    job.Chains (job.substituteArgs args) p fun _ => p := by
  refine Chains.option_mapM (fun args => ?_) args
  refine (Chains.mapM fun entry _ => ?_).bind fun entries => chains_pure _
  exact (chains_substitute entry.2).bind fun _ => chains_pure _

/-- To point a node at the copies is a chain of steps. -/
theorem chains_resolve (n : Node) : job.Chains (job.resolve n) p fun _ => p := by
  refine chains_copies.bind fun map => ?_
  split
  · exact chains_pure _
  · exact chains_pure _
  · exact chains_pure _
  · exact chains_pure _
  · refine (chains_substitute _).bind fun ty => ?_
    exact (job.chains_substituteArgs _).bind fun typeArgs => chains_pure _
  · split
    · exact chains_pure _
    · refine (chains_substitute _).bind fun ty => ?_
      exact (job.chains_substituteArgs _).bind fun typeArgs => chains_pure _
  · split
    · exact chains_pure _
    · exact (chains_substitute _).bind fun ty => chains_pure _
  · exact chains_pure _
  · exact chains_pure _
  · exact (chains_substitute _).bind fun ty => chains_pure _
  · exact (chains_substitute _).bind fun ty => chains_pure _
  · exact (chains_substitute _).bind fun ty => chains_pure _
  · exact chains_pure _
  · refine (chains_substitute _).bind fun ty => ?_
    exact (chains_substitute _).bind fun operandTy => chains_pure _

/-- The second pass over a tree is a chain of steps. -/
theorem chains_redirectReferences (n : Node) :
    job.Chains (job.redirectReferences n) p fun _ => p := by
  unfold redirectReferences
  induction n using Node.induction_children with
  | step n ih =>
    rw [Node.rebuildChildren_eq, map_eq_pure_bind]
    refine Chains.bind (Chains.mapM fun c hc => ?_) fun cs => chains_pure _
    exact (ih c hc).bind fun c' => job.chains_resolve c'

end CopyJob

namespace Copier

open CopyM CopyJob

variable (copier : Copier σ)

/-- What stays the same throughout a copy that starts in the given program. -/
def job (program : Program) (inlined : String) : CopyJob σ where
  target := copier.target
  scheme :=
    { target := program.lookup ((program.symbols.get? copier.target).elim .empty (·.name))
      inlined }
  substitutor := copier.substitutor
  supertypes := copier.options.supertypes

/-- The second pass of a copy, and the check. -/
def secondPass (job : CopyJob σ) (root : Node) : CopyM σ Copied := do
  let copy ← job.redirectReferences root
  let map ← CopyM.copies
  if copier.options.checked then
    if let .error e := map.check copy then CopyM.reject e
  return ⟨copy, map⟩

/-- Both passes of a copy. -/
def passes (job : CopyJob σ) (root : Node) : CopyM σ Copied := do
  forM root.children job.copyDeclarations
  copier.secondPass job root

/-- A copy whose target is there goes through both passes; another stops at once. -/
theorem actions_eq (root : Node) (inlined : String) (s : CopyState σ) :
    copier.actions root inlined s =
      if s.program.symbols.Allocated copier.target.symbol then
        copier.passes (copier.job s.program inlined) root s
      else
        .error (.unallocated (.symbol copier.target.symbol)) s := by
  cases h : s.program.symbols.get? copier.target with
  | some r =>
    rw [if_pos (SymbolTable.allocated_iff.2 ⟨r, h⟩), job, h]
    exact Ends.bind_of_ok (record_of_some h)
  | none =>
    rw [if_neg fun ha => ?_]
    · exact Ends.bind_of_error (record_of_none h)
    · obtain ⟨r, hr⟩ := SymbolTable.allocated_iff.1 ha
      rw [h] at hr
      cases hr

/-- The target is looked up first; then the passes run. -/
theorem actions_ends {root : Node} {inlined : String} {s : CopyState σ}
    {ok : Copied → CopyState σ → Prop} {err : CopyFault → CopyState σ → Prop}
    (hpasses : s.program.symbols.Allocated copier.target.symbol →
      Ends (copier.passes (copier.job s.program inlined) root) s ok err)
    (hnone : ¬ s.program.symbols.Allocated copier.target.symbol →
      err (.unallocated (.symbol copier.target.symbol)) s) :
    Ends (copier.actions root inlined) s ok err := by
  have h := copier.actions_eq root inlined s
  by_cases ha : s.program.symbols.Allocated copier.target.symbol
  · rw [if_pos ha] at h
    unfold Ends
    rw [h]
    exact hpasses ha
  · rw [if_neg ha] at h
    exact Ends.of_eq_error h (hnone ha)

/-- The first pass is a chain of steps that leaves nothing pending. -/
theorem firstPass_steps (job : CopyJob σ) (root : Node) (s : CopyState σ) :
    Ends (forM root.children job.copyDeclarations) s
      (fun _ s' => job.Steps ([], s) ([], s')) (fun _ s' => ∃ rest, job.Steps ([], s) (rest, s')) :=
  Chains.forM (fun c _ => job.chains_copyDeclarations c) s

/-- Both passes are a chain of steps, and the copies returned are those of the last state. -/
theorem passes_steps (job : CopyJob σ) (root : Node) (s : CopyState σ) :
    Ends (copier.passes job root) s
      (fun copied s' => copied.map = s'.map ∧ job.Steps ([], s) ([], s'))
      (fun _ s' => ∃ rest, job.Steps ([], s) (rest, s')) := by
  refine Ends.bind ((firstPass_steps job root s).imp (fun _ s₁ h₁ => ?_) fun _ _ h => h)
  refine Ends.bind ((job.chains_redirectReferences root s₁).imp (fun copy s₂ h₂ => ?_)
    fun _ _ ⟨rest, h₂⟩ => ⟨rest, h₁.trans h₂⟩)
  refine Ends.bind (Ends.of_eq_ok (show copies s₂ = .ok s₂.map s₂ from rfl) ?_)
  dsimp only
  split
  · split
    · exact ⟨[], h₁.trans h₂⟩
    · exact ⟨rfl, h₁.trans h₂⟩
  · exact ⟨rfl, h₁.trans h₂⟩

/-- **Every copy is a chain of steps,** and one that succeeds has recorded every
symbol it added. -/
theorem actions_steps (root : Node) (inlined : String) (s : CopyState σ) :
    Ends (copier.actions root inlined) s
      (fun copied s' => copied.map = s'.map ∧
        (copier.job s.program inlined).Steps ([], s) ([], s'))
      (fun _ s' => ∃ rest, (copier.job s.program inlined).Steps ([], s) (rest, s')) :=
  copier.actions_ends (fun _ => copier.passes_steps _ root s) fun _ => ⟨[], .refl⟩

/-- A copy that succeeds is a run of its actions that does. -/
theorem actions_of_copy {copier : Copier σ} {root : Node} {inlined : String}
    {program program' : Program} {memory memory' : σ} {copied : Copied}
    (h : copier.copy root inlined (program, memory) = .ok copied (program', memory')) :
    copier.actions root inlined { program, memory } =
      .ok copied { program := program', memory := memory', map := copied.map } := by
  unfold copy at h
  dsimp only at h
  cases hm : copier.actions root inlined { program, memory } with
  | ok copied' s =>
    rw [hm] at h
    obtain ⟨rfl, hs⟩ := EStateM.Result.ok.inj h
    obtain ⟨rfl, rfl⟩ := Prod.mk.inj hs
    rw [((copier.actions_steps root inlined _).ok_of_eq hm).1]
  | error e s =>
    rw [hm] at h
    cases h

end Copier

end Graft
