/-
# Copying a single declaration

What each kind of declaration needs to be given a copy, and what it gains.  A class is
the only declaration that is copied in two steps.
-/

import Graft.Proofs.Copy.Gains

namespace Graft

variable {σ : Type}

namespace SymbolTable

/-- The type parameters of a callable; none if it is not allocated. -/
def typeParamsOf (table : SymbolTable) : Callable → List TypeParamId
  | .fn id => (table.get? id).elim [] (·.typeParams)
  | .ctor id => (table.get? id).elim [] (·.typeParams)

end SymbolTable

/-- The copy of a callable, or the callable itself if it was not copied. -/
def CopyMap.redirectCallable (map : CopyMap) : Callable → Callable
  | .fn id => .fn (map.redirect id)
  | .ctor id => .ctor (map.redirect id)

/-- The copy of a callable lists the copies of the parameters that the callable lists
in the given table. -/
def CopyState.ListsParams (s : CopyState σ) (table : SymbolTable) (callable : Callable) : Prop :=
  s.program.symbols.paramList (s.map.redirectCallable callable) =
    .ok ((table.paramsOf callable).map s.map.redirect)

namespace CopyState

variable {s s' : CopyState σ} {keys : List Symbol}

/-- A callable that had a copy keeps that copy. -/
theorem Gains.redirectCallable (h : s.Gains s' keys) {callable : Callable}
    (hc : callable.symbol ∈ s.map.keys) :
    s'.map.redirectCallable callable = s.map.redirectCallable callable := by
  cases callable with
  | fn id => exact congrArg Callable.fn (h.redirect hc)
  | ctor id => exact congrArg Callable.ctor (h.redirect hc)

/-- A copy keeps its list. -/
theorem ListsParams.gains {table : SymbolTable} {callable : Callable}
    (h : s.ListsParams table callable) (hg : s.Gains s' keys)
    (hc : ∀ a ∈ table.withParams callable, a ∈ s.map.keys) :
    s'.ListsParams table callable := by
  have hlist := h
  rw [ListsParams] at hlist
  rw [ListsParams, hg.redirectCallable (hc _ (SymbolTable.mem_withParams.2 rfl)),
    hg.symbols.paramList (SymbolTable.allocated_of_paramList hlist), hlist]
  refine congrArg Except.ok (List.map_congr_left fun p hp => (hg.redirect (hc _ ?_)).symm)
  exact SymbolTable.mem_withParams_iff.2 (.inl ⟨p, hp, rfl⟩)

end CopyState

namespace CopyJob

open CopyM CopyState
open ParamSubst (outcome)

variable {job : CopyJob σ} {program : Program} {subst : Option ParamSubst} {s : CopyState σ}

/-! ### Declarations -/

/-- A function is copied if it has no type parameters and it and its parameters have
no copies. -/
theorem Over.mintFunction_ends (h : job.Over program subst) (hs : s.Over program)
    {function : FunctionId} (hf : program.symbols.Allocated function.symbol) :
    Ends (job.mintFunction function) s
      (fun _ s' => (program.symbols.typeParamsOf (.fn function) = [] ∧
          s.Fresh (program.symbols.withParams (.fn function))) ∧
        s.Gains s' (program.symbols.withParams (.fn function)) ∧
        s'.ListsParams program.symbols (.fn function) ∧
        (∀ r, program.symbols.get? function = some r → s'.Reads job subst function .fn r) ∧
        s'.ReadsParams job subst program.symbols (.fn function))
      (fun e _ => Fails (program.symbols.typeParamsOf (.fn function) = [] ∧
        s.Fresh (program.symbols.withParams (.fn function))) e) := by
  obtain ⟨r, hr⟩ := SymbolTable.allocated_iff.1 hf
  have hgeneric : program.symbols.typeParamsOf (.fn function) = r.typeParams := by
    rw [SymbolTable.typeParamsOf, hr]
    rfl
  simp only [ListsParams, ReadsParams, SymbolTable.withParams, SymbolTable.paramsOf_fn hr,
    hgeneric]
  refine Ends.bind (Ends.of_eq_ok (record_over hs hr) ?_)
  dsimp only
  split
  · rename_i hne
    refine .inr ⟨fun hn => ?_, _, rfl⟩
    rw [hn.1] at hne
    cases hne
  · rename_i hempty
    have hnil : r.typeParams = [] := by simpa using hempty
    refine Ends.bind ((freshName_gains r.name s).imp (fun name s₁ hg₁ => ?_)
      fun _ _ he => .inl he)
    have hs₁ := hs.gains hg₁
    refine Ends.bind ((h.substitute_gains hs₁ (h.closed.has hr (.head _))).imp ?_
      fun _ _ h => h.elim)
    rintro returnType s₂ ⟨hg₂, hreturn⟩
    have hs₂ := hs₁.gains hg₂
    refine Ends.bind ((h.substituteOption_gains hs₂ fun t ht =>
      h.closed.has hr (.tail _ (List.mem_append_left _ ht))).imp ?_ fun _ _ h => h.elim)
    rintro extensionReceiver s₃ ⟨hg₃, hextension⟩
    have hg : s.Gains s₃ [] := (hg₁.trans hg₂).trans hg₃
    refine (gains_from hg (h.declare_gains (hs₂.gains hg₃) function _ .fn (fun _ => rfl)
      (fun params r => { r with params }) (fun _ _ _ => rfl) r.params
      fun p hp => h.closed.allocated hr ?_)).imp ?_ fun _ _ hfail => hfail.imp And.right
    · exact List.mem_append_right _ (List.mem_map_of_mem hp)
    · rintro - s₄ ⟨hf₄, hg, hg₄, hlist, hform, hparams⟩
      refine ⟨⟨hnil, hf₄⟩, hg, hlist, fun r' hr' => ⟨name, hform.congr fun map pool hl => ?_⟩,
        fun p hp r' hr' => ⟨r'.name, hparams p hp r' hr'⟩⟩
      obtain rfl : r = r' := Option.some.inj (hr.symm.trans hr')
      have hl₃ := hg₄.before hl
      rw [hreturn pool (hg₃.before hl₃).pool, hextension pool hl₃.pool]
      rfl

/-- A constructor is copied if, besides, its class has a copy. -/
theorem Over.mintConstructor_ends (h : job.Over program subst) (hs : s.Over program)
    {constructor : ConstructorId} {r : ConstructorRecord}
    (hr : program.symbols.get? constructor = some r) :
    Ends (job.mintConstructor constructor) s
      (fun _ s' => (r.cls.symbol ∈ s.map.keys ∧
          program.symbols.typeParamsOf (.ctor constructor) = [] ∧
          s.Fresh (program.symbols.withParams (.ctor constructor))) ∧
        s.Gains s' (program.symbols.withParams (.ctor constructor)) ∧
        s'.ListsParams program.symbols (.ctor constructor) ∧
        s'.Reads job subst constructor .ctor r ∧
        s'.ReadsParams job subst program.symbols (.ctor constructor))
      (fun e _ => Fails (r.cls.symbol ∈ s.map.keys ∧
        program.symbols.typeParamsOf (.ctor constructor) = [] ∧
        s.Fresh (program.symbols.withParams (.ctor constructor))) e) := by
  have hgeneric : program.symbols.typeParamsOf (.ctor constructor) = r.typeParams := by
    rw [SymbolTable.typeParamsOf, hr]
    rfl
  simp only [ListsParams, ReadsParams, SymbolTable.withParams, SymbolTable.paramsOf_ctor hr,
    hgeneric]
  refine Ends.bind (Ends.of_eq_ok (record_over hs hr) ?_)
  refine Ends.bind (Ends.of_eq_ok (show copies s = .ok s.map s from rfl) ?_)
  dsimp only
  -- the class is asked for first, then the type parameters, and only then is anything made
  cases hget : s.map.get? r.cls with
  | none => exact .inr ⟨fun hn => CopyMap.get?_eq_none_iff.1 hget hn.1, _, rfl⟩
  | some cls =>
    have hkey : r.cls.symbol ∈ s.map.keys := CopyMap.mem_keys_of_get? hget
    dsimp only
    split
    · rename_i hne
      refine .inr ⟨fun hn => ?_, _, rfl⟩
      rw [hn.2.1] at hne
      cases hne
    · rename_i hempty
      have hnil : r.typeParams = [] := by simpa using hempty
      refine Ends.bind ((h.substitute_gains hs (h.closed.has hr (.head _))).imp ?_
        fun _ _ h => h.elim)
      rintro returnType s₁ ⟨hg₁, hreturn⟩
      have hs₁ := hs.gains hg₁
      refine Ends.bind ((h.substituteOption_gains hs₁ fun t ht =>
        h.closed.has hr (.tail _ ht)).imp ?_ fun _ _ h => h.elim)
      rintro dispatchReceiver s₂ ⟨hg₂, hdispatch⟩
      have hg : s.Gains s₂ [] := hg₁.trans hg₂
      refine (gains_from hg (h.declare_gains (hs₁.gains hg₂) constructor _ .ctor (fun _ => rfl)
        (fun params r => { r with params }) (fun _ _ _ => rfl) r.params
        fun p hp => h.closed.allocated hr ?_)).imp ?_ fun _ _ hfail => hfail.imp fun hn => hn.2.2
      · exact .tail _ (List.mem_append_right _ (List.mem_map_of_mem hp))
      · rintro - s₃ ⟨hf₃, hg, hg₃, hlist, hform, hparams⟩
        refine ⟨⟨hkey, hnil, hf₃⟩, hg, hlist, ⟨.empty, hform.congr fun map pool hl => ?_⟩,
          fun p hp r' hr' => ⟨r'.name, hparams p hp r' hr'⟩⟩
        have hl₂ := hg₃.before hl
        have hredirect : map.redirect r.cls = cls := by
          rw [(hg.before hl).redirect hkey, CopyMap.redirect, hget]
          rfl
        rw [hreturn pool (hg₂.before hl₂).pool, hdispatch pool hl₂.pool, ← hredirect]
        rfl

/-- An `invoke` operator is copied if it and its parameters have no copies. -/
theorem Over.mintInvoke_ends (h : job.Over program subst) (hs : s.Over program)
    {invoke : FunctionId} (hi : program.symbols.Allocated invoke.symbol) :
    Ends (job.mintInvoke invoke) s
      (fun _ s' => s.Fresh (program.symbols.withParams (.fn invoke)) ∧
        s.Gains s' (program.symbols.withParams (.fn invoke)) ∧
        s'.ListsParams program.symbols (.fn invoke) ∧
        (∀ r, program.symbols.get? invoke = some r → s'.Reads job subst invoke .invoke r) ∧
        s'.ReadsParams job subst program.symbols (.fn invoke))
      (fun e _ => Fails (s.Fresh (program.symbols.withParams (.fn invoke))) e) := by
  obtain ⟨r, hr⟩ := SymbolTable.allocated_iff.1 hi
  simp only [ListsParams, ReadsParams, SymbolTable.withParams, SymbolTable.paramsOf_fn hr]
  refine Ends.bind (Ends.of_eq_ok (record_over hs hr) ?_)
  refine Ends.bind ((h.substitute_gains hs (h.closed.has hr (.head _))).imp ?_
    fun _ _ h => h.elim)
  rintro returnType s₁ ⟨hg₁, hreturn⟩
  refine (gains_from hg₁ (h.declare_gains (hs.gains hg₁) invoke _ .fn (fun _ => rfl)
    (fun params r => { r with params }) (fun _ _ _ => rfl) r.params
    fun p hp => h.closed.allocated hr ?_)).imp ?_ fun _ _ hfail => hfail
  · exact List.mem_append_right _ (List.mem_map_of_mem hp)
  · rintro - s₂ ⟨hf₂, hg, hg₂, hlist, hform, hparams⟩
    refine ⟨hf₂, hg, hlist, fun r' hr' => ⟨.empty, hform.congr fun map pool hl => ?_⟩,
      fun p hp r' hr' => ⟨r'.name, hparams p hp r' hr'⟩⟩
    obtain rfl : r = r' := Option.some.inj (hr.symm.trans hr')
    rw [hreturn pool (hg₂.before hl).pool]
    rfl

/-- A variable is copied if it has no copy. -/
theorem Over.mintVariable_ends (h : job.Over program subst) (hs : s.Over program)
    {variableId : VariableId} (hv : program.symbols.Allocated variableId.symbol) :
    Ends (job.mintVariable variableId) s
      (fun _ s' => s.Fresh [variableId.symbol] ∧ s.Gains s' [variableId.symbol] ∧
        ∀ r, program.symbols.get? variableId = some r → s'.Reads job subst variableId .var r)
      (fun e _ => Fails (s.Fresh [variableId.symbol]) e) := by
  obtain ⟨r, hr⟩ := SymbolTable.allocated_iff.1 hv
  refine Ends.bind (Ends.of_eq_ok (record_over hs hr) ?_)
  refine Ends.bind ((freshName_gains r.name s).imp (fun name s₁ hg₁ => ?_)
    fun _ _ he => .inl he)
  refine Ends.bind ((h.substitute_gains (hs.gains hg₁) (h.closed.has hr (.head _))).imp
    (fun ty s₂ ⟨hg₂, hty⟩ => ?_) fun _ _ h => h.elim)
  refine Ends.bind ((mint_gains _ s₂).imp (fun copy s₃ ⟨hg₃, _, hcopied⟩ => ?_)
    fun _ _ h => h.elim)
  have hg : s.Gains s₃ [] := (hg₁.trans hg₂).trans hg₃
  refine (gains_from hg (register_gains variableId copy s₃)).imp ?_ fun _ _ hfail => hfail
  rintro - s₄ ⟨hf₄, hg, hg₄, hcopy, -⟩
  refine ⟨hf₄, hg, fun r' hr' => ⟨name, (hg₄.gained _).2 (.inr (.head _)), fun map pool hl => ?_⟩⟩
  obtain rfl : r = r' := Option.some.inj (hr.symm.trans hr')
  rw [hcopy, hg₄.symbols.get? hcopied, hty pool (hg₃.before (hg₄.before hl)).pool]
  rfl

/-! ### Classes -/

/-- The record of a class's copy that does not list its constructors yet. -/
def openedRecord (terms : CopyTerms) (name : Name) (r : ClassRecord) : ClassRecord :=
  { r with
    name
    owner := .fn terms.target
    supertypes := terms.supertypes.apply terms.exchange.type r.supertypes
    constructors := []
    primary := none }

/-- Supertypes are made without copies, and can be read in any later pool. -/
theorem Over.copySupertypes_ends (h : job.Over program subst) (hs : s.Over program)
    {r : ClassRecord} (hr : ∀ t ∈ r.supertypes, program.pool.Has t) :
    Ends (job.copySupertypes r) s
      (fun supertypes s' => s.Gains s' [] ∧ ∀ later : TypePool, later.Extends s'.program.pool →
        supertypes = job.supertypes.apply (outcome subst later) r.supertypes)
      (fun _ _ => False) := by
  unfold copySupertypes
  split
  · rename_i hrule
    rw [hrule]
    exact Substitutes.gains (Substitutes.mapM r.supertypes fun t ht =>
      h.substitutes_substitute (hr t ht)) hs
  · rename_i hrule
    rw [hrule]
    exact ⟨.refl s, fun _ _ => rfl⟩

/-- A class is opened if it has no copy.  Its copy is new. -/
theorem Over.openClass_ends (h : job.Over program subst) (hs : s.Over program) {cls : ClassId}
    {r : ClassRecord} (hr : program.symbols.get? cls = some r) :
    Ends (job.openClass cls) s
      (fun opened s' => s.Fresh [cls.symbol] ∧ s.Gains s' [cls.symbol] ∧ opened.1 = r ∧
        ¬ s.program.symbols.Allocated opened.2.symbol ∧ s'.map.redirect cls = opened.2 ∧
        ∃ name, s'.Holds cls fun map pool => openedRecord (job.terms subst map pool) name r)
      (fun e _ => Fails (s.Fresh [cls.symbol]) e) := by
  rw [openClass_eq]
  refine Ends.bind (Ends.of_eq_ok (record_over hs hr) ?_)
  refine Ends.bind ((h.copySupertypes_ends hs fun t ht => h.closed.has hr ht).imp
    (fun supertypes s₁ ⟨hg₁, hsupertypes⟩ => ?_) fun _ _ h => h.elim)
  refine Ends.bind ((freshName_gains r.name s₁).imp (fun name s₂ hg₂ => ?_)
    fun _ _ he => .inl he)
  refine Ends.bind ((mint_gains _ s₂).imp (fun copy s₃ ⟨hg₃, hnew, hcopied⟩ => ?_)
    fun _ _ h => h.elim)
  have hg₁₂ : s.Gains s₂ [] := hg₁.trans hg₂
  have hg : s.Gains s₃ [] := hg₁₂.trans hg₃
  refine Ends.bind ((gains_from hg (register_gains cls copy s₃)).imp ?_ fun _ _ hfail => hfail)
  rintro - s₄ ⟨hf₄, hg, hg₄, hcopy, -⟩
  refine ⟨hf₄, hg, rfl, fun ha => hnew (hg₁₂.symbols.allocated ha), hcopy, name,
    (hg₄.gained _).2 (.inr (.head _)), fun map pool hl => ?_⟩
  rw [hcopy, hg₄.symbols.get? hcopied,
    hsupertypes pool (hg₂.before (hg₃.before (hg₄.before hl))).pool]
  rfl

/-- To read the copy of a constructor succeeds just when there is one. -/
theorem copiedConstructor_ends (cls : ClassId) (constructor : ConstructorId) (s : CopyState σ) :
    Ends (copiedConstructor cls constructor) s
      (fun copy s' => s' = s ∧ constructor.symbol ∈ s.map.keys ∧
        copy = s.map.redirect constructor)
      (fun e _ => Fails (constructor.symbol ∈ s.map.keys) e) := by
  refine Ends.bind (Ends.of_eq_ok (show copies s = .ok s.map s from rfl) ?_)
  cases hget : s.map.get? constructor with
  | none => exact .inr ⟨CopyMap.get?_eq_none_iff.1 hget, _, rfl⟩
  | some copy =>
    refine ⟨rfl, CopyMap.mem_keys_of_get? hget, ?_⟩
    rw [CopyMap.redirect, hget, Option.getD_some]

/-- A class is closed if the constructors that it lists have copies, and then lists these. -/
theorem closeClass_ends (cls : ClassId) (r : ClassRecord) (copy : ClassId) (s : CopyState σ) :
    Ends (closeClass cls r copy) s
      (fun _ s' => (∀ c ∈ r.constructors ++ r.primary.toList, c.symbol ∈ s.map.keys) ∧
        s' = s.withSymbols (s.program.symbols.modify copy fun (c : ClassRecord) =>
          { c with
            constructors := r.constructors.map s.map.redirect
            primary := r.primary.map s.map.redirect }))
      (fun e _ => Fails (∀ c ∈ r.constructors ++ r.primary.toList, c.symbol ∈ s.map.keys) e) := by
  have hlisted : Ends (r.constructors.mapM (copiedConstructor cls)) s
      (fun constructors s' => s' = s ∧ (∀ c ∈ r.constructors, SymbolId.symbol c ∈ s.map.keys) ∧
        constructors = r.constructors.map s.map.redirect)
      (fun e _ => Fails (∀ c ∈ r.constructors ++ r.primary.toList, c.symbol ∈ s.map.keys) e) := by
    refine Ends.mapM
      (I := fun done copies s' => s' = s ∧ (∀ c ∈ done, SymbolId.symbol c ∈ s.map.keys) ∧
        copies = done.map s.map.redirect) _ ⟨rfl, nofun, rfl⟩ ?_
    rintro done c rest hsplit copies s₁ ⟨rfl, hdone, rfl⟩
    refine (copiedConstructor_ends cls c s₁).imp ?_ ?_
    · rintro _ s₂ ⟨rfl, hc, rfl⟩
      exact ⟨rfl, List.forall_mem_append.2 ⟨hdone, List.forall_mem_singleton.2 hc⟩, by simp⟩
    · intro e s₂ hfail
      refine hfail.imp fun hall => hall c (List.mem_append_left _ ?_)
      exact hsplit ▸ List.mem_append_right _ (.head _)
  refine Ends.bind (hlisted.imp (fun constructors s₁ ⟨hs₁, hall, hvalues⟩ => ?_) fun _ _ h => h)
  subst hs₁ hvalues
  have hprimary : Ends (r.primary.mapM (copiedConstructor cls)) s₁
      (fun primary s' => s' = s₁ ∧ (∀ c ∈ r.primary.toList, c.symbol ∈ s₁.map.keys) ∧
        primary = r.primary.map s₁.map.redirect)
      (fun e _ => Fails (∀ c ∈ r.constructors ++ r.primary.toList, c.symbol ∈ s₁.map.keys) e) := by
    refine Ends.option_mapM (fun hnone => ⟨rfl, ?_⟩) fun c hc => ?_
    · rw [hnone]
      exact ⟨nofun, rfl⟩
    · rw [hc]
      refine (copiedConstructor_ends cls c s₁).imp ?_ ?_
      · rintro _ s₂ ⟨rfl, hc, rfl⟩
        exact ⟨rfl, List.forall_mem_singleton.2 hc, rfl⟩
      · exact fun e s₂ hfail => hfail.imp fun hall =>
          hall c (List.mem_append_right _ (.head _))
  refine Ends.bind (hprimary.imp (fun primary s₂ ⟨hs₂, hp, hvalue⟩ => ?_) fun _ _ h => h)
  subst hs₂ hvalue
  exact ⟨List.forall_mem_append.2 ⟨hall, hp⟩, rfl⟩

end CopyJob

end Graft
