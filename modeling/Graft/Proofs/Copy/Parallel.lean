/-
# Copies side by side

What a copy does depends on the substitutor through the calls of the substitutor alone.  Let two
jobs differ in their substitutors only, and let these do the same for all types that are allowed
(`CopyJob.Twins`), where their memories may be of different sorts.  Then two runs that start from
states with the same symbols, names and copies stay side by side (`CopyState.Beside`) and end
alike, as long as the types that are substituted are allowed, that is, those of the nodes and of
the records that they bring (`Node.Permitted`, `Copier.parallel_copy`).
-/

import Graft.Proofs.Copy.Gains
import Graft.Proofs.Copy.Image
import Graft.Proofs.Parallel

namespace Graft

variable {σ σ' α β γ : Type} {k : Kind}

/-- The jobs differ in their substitutors only, which do the same for the types that are
allowed. -/
structure CopyJob.Twins (allowed : TypeId → Prop) (R : TypePool × σ → TypePool × σ' → Prop)
    (job : CopyJob σ) (job' : CopyJob σ') : Prop where
  target : job'.target = job.target
  scheme : job'.scheme = job.scheme
  supertypes : job'.supertypes = job.supertypes
  substitute : ∀ t, allowed t → Parallel R (Substitutor.applyOrKeep job.substitutor t)
    (Substitutor.applyOrKeep job'.substitutor t) fun _ => True

/-- The states have the same symbols, names and copies, and related types and memories.  The
symbols are those of the table and what was added. -/
structure CopyState.Beside (table : SymbolTable) (R : TypePool × σ → TypePool × σ' → Prop)
    (s : CopyState σ) (s' : CopyState σ') : Prop where
  symbols : s'.program.symbols = s.program.symbols
  supply : s'.program.supply = s.program.supply
  map : s'.map = s.map
  types : R (s.program.pool, s.memory) (s'.program.pool, s'.memory)
  old : s.program.symbols.Extends table

/-! ### What is allowed -/

namespace SymbolTable

/-- What can be read of a symbol once the table was added to: its record, if it has one. -/
def Reads (table : SymbolTable) (id : SymbolId k) (r : Record k) : Prop :=
  ∀ r', table.get? id = some r' → r = r'

/-- The types that are read with a symbol are allowed. -/
def Permits (table : SymbolTable) (allowed : TypeId → Prop) (id : SymbolId k) : Prop :=
  ∀ r, table.Reads id r → ∀ t ∈ Record.types k r, allowed t

/-- The types that are read with a callable and with its parameters are allowed. -/
def PermitsCallable (table : SymbolTable) (allowed : TypeId → Prop) : Callable → Prop
  | .fn id => table.Permits allowed id ∧
    ∀ r, table.Reads id r → ∀ p ∈ r.params, table.Permits allowed p
  | .ctor id => table.Permits allowed id ∧
    ∀ r, table.Reads id r → ∀ p ∈ r.params, table.Permits allowed p

end SymbolTable

/-- The types of a node, and those that are read with what it declares or calls, are allowed. -/
def Node.Permitted (table : SymbolTable) (allowed : TypeId → Prop) (n : Node) : Prop :=
  (∀ t ∈ n.types, allowed t) ∧
    match n with
    | .classDecl _ _ symbol _ => table.Permits allowed symbol
    | .functionDecl _ _ symbol _ => table.PermitsCallable allowed (.fn symbol)
    | .constructorDecl _ _ symbol _ => table.PermitsCallable allowed (.ctor symbol)
    | .variableDecl _ _ symbol _ => table.Permits allowed symbol
    | .call _ _ _ (.fn callee) .. =>
      (∃ r, table.Reads callee r ∧ r.isTypeInvoke = true) →
        table.PermitsCallable allowed (.fn callee)
    | _ => True

/-- Where every type is allowed, every node is permitted. -/
theorem Node.permitted_of_forall {allowed : TypeId → Prop} (h : ∀ t, allowed t)
    (table : SymbolTable) (n : Node) : n.Permitted table allowed := by
  have hpermits : ∀ {k : Kind} (id : SymbolId k), table.Permits allowed id :=
    fun id r _ t _ => h t
  have hcallable : ∀ callable, table.PermitsCallable allowed callable := by
    rintro (id | id) <;> exact ⟨hpermits id, fun r _ p _ => hpermits p⟩
  refine ⟨fun t _ => h t, ?_⟩
  split
  · exact hpermits _
  · exact hcallable _
  · exact hcallable _
  · exact hpermits _
  · exact fun _ => hcallable _
  · trivial

/-! ### Single actions -/

variable {allowed : TypeId → Prop} {R : TypePool × σ → TypePool × σ' → Prop}
  {table : SymbolTable}

namespace CopyM

open CopyState

/-- From states side by side the two actions end alike. -/
abbrev Twin (table : SymbolTable) (R : TypePool × σ → TypePool × σ' → Prop) (m : CopyM σ α)
    (m' : CopyM σ' α) (P : α → Prop) : Prop := Parallel (Beside table R) m m' P

/-- To read a record of the tables side by side. -/
theorem twin_record (id : SymbolId k) :
    Twin table R (record id) (record id) (table.Reads id) := by
  intro s s' hs
  unfold record
  rw [hs.symbols]
  unfold SymbolTable.get
  cases hr : s.program.symbols.get? id with
  | none => exact .error hs
  | some r =>
    refine .ok (fun r' hr' => ?_) hs
    exact Option.some.inj (hr.symm.trans (hs.old.get? hr'))

/-- To read the copies side by side. -/
theorem twin_copies : Twin table R copies copies fun _ => True := by
  intro s s' hs
  unfold copies
  rw [hs.map]
  exact .ok trivial hs

/-- A record that is added is none of the table. -/
theorem twin_mint (r : Record k) :
    Twin table R (mint r) (mint r) fun id => ¬ table.Allocated id.symbol := by
  intro s s' hs
  unfold mint
  rw [hs.symbols]
  refine .ok (fun hthere => ?_) ⟨rfl, hs.supply, hs.map, hs.types,
    hs.old.trans (SymbolTable.add_extends _ r)⟩
  exact Nat.lt_irrefl _ (hs.old.allocated hthere)

/-- What was added may be completed. -/
theorem twin_complete {id : SymbolId k} (hnew : ¬ table.Allocated id.symbol)
    (f : Record k → Record k) :
    Twin table R (complete id f) (complete id f) fun _ => True := by
  intro s s' hs
  unfold complete
  rw [hs.symbols]
  exact .ok trivial ⟨rfl, hs.supply, hs.map, hs.types, hs.old.modify hnew f⟩

/-- To set a list of parameters side by side, in records that are new. -/
theorem twin_setParamList {callable : Callable} (hnew : ¬ table.Allocated callable.symbol)
    (params : List ParamId) :
    Twin table R (setParamList callable params) (setParamList callable params)
      fun _ => True := by
  intro s s' hs
  unfold setParamList
  rw [hs.symbols]
  exact .ok trivial ⟨rfl, hs.supply, hs.map, hs.types, hs.old.setParamList hnew params⟩

/-- To register a copy side by side. -/
theorem twin_register [k.Copied] (id copy : SymbolId k) :
    Twin table R (register id copy) (register id copy) fun _ => True := by
  intro s s' hs
  unfold register
  rw [hs.map]
  cases s.map.insert id copy with
  | ok map => exact .ok trivial ⟨hs.symbols, hs.supply, rfl, hs.types, hs.old⟩
  | error e => exact .error hs

/-- To reject the tree side by side. -/
theorem twin_reject (e : Rejection) {P : α → Prop} :
    Twin table R (reject e) (reject e) P := Parallel.throw _

/-- What would come after a rejection is not done. -/
theorem twin_reject_bind (e : Rejection) {f : α → CopyM σ β} {f' : α → CopyM σ' β}
    {P : β → Prop} : Twin table R (reject e >>= f) (reject e >>= f') P :=
  (twin_reject e (P := fun _ => False)).bind fun _ h => h.elim

end CopyM

namespace CopyJob

open CopyM

variable {job : CopyJob σ} {job' : CopyJob σ'} (h : job.Twins allowed R job')

include h

/-- To draw a name side by side. -/
theorem Twins.freshName (base : Name) :
    Twin table R (job.freshName base) (job'.freshName base) fun _ => True := by
  intro s s' hs
  unfold CopyJob.freshName
  rw [h.scheme, hs.supply]
  cases job.scheme.fresh base s.program.supply with
  | ok name supply => exact .ok trivial ⟨hs.symbols, rfl, hs.map, hs.types, hs.old⟩
  | error e supply => exact .error ⟨hs.symbols, rfl, hs.map, hs.types, hs.old⟩

/-- Here the substitutors are called. -/
theorem Twins.substituted {t : TypeId} (ht : allowed t) :
    Twin table R (job.substitute t) (job'.substitute t) fun _ => True := by
  intro s s' hs
  have hend := h.substitute t ht _ _ hs.types
  unfold CopyJob.substitute
  revert hend
  generalize Substitutor.applyOrKeep job.substitutor t (s.program.pool, s.memory) = r
  generalize Substitutor.applyOrKeep job'.substitutor t (s'.program.pool, s'.memory) = r'
  rintro (⟨-, hstate⟩ | hstate)
  · exact .ok trivial ⟨hs.symbols, hs.supply, hs.map, hstate, hs.old⟩
  · exact .error ⟨hs.symbols, hs.supply, hs.map, hstate, hs.old⟩

/-- To substitute side by side in a type that may be missing. -/
theorem Twins.substitutedOption {t : Option TypeId} (ht : ∀ u ∈ t.toList, allowed u) :
    Twin table R (t.mapM job.substitute) (t.mapM job'.substitute) fun _ => True :=
  Parallel.option_mapM fun u hu => h.substituted (ht u (Option.mem_toList.2 hu))

/-! ### Declarations -/

/-- To mint the parameters of a callable side by side. -/
theorem Twins.mintParams {params : List ParamId}
    (hparams : ∀ p ∈ params, table.Permits allowed p) (owner : Callable) :
    Twin table R (job.mintParams params owner) (job'.mintParams params owner) fun _ => True := by
  refine Parallel.mapM fun p hp => (twin_record p).bind fun r hr => ?_
  have htypes := hparams p hp r hr
  refine (h.substituted (htypes _ (.head _))).bind fun ty _ => ?_
  refine (h.substitutedOption fun u hu => htypes u (.tail _ hu)).bind fun varargElement _ => ?_
  refine (twin_mint (k := .param) _).bind fun copy _ => ?_
  exact (twin_register p copy).bind fun _ _ => Parallel.pure trivial

/-- A callable is added, completed with its parameters and recorded. -/
theorem Twins.declare [k.Copied] (id : SymbolId k) (r : Record k) (callable : SymbolId k → Callable)
    (hcallable : ∀ copy, (callable copy).symbol = copy.symbol) {params : List ParamId}
    (hparams : ∀ p ∈ params, table.Permits allowed p) :
    Twin table R
      (do
        let copy ← mint r
        setParamList (callable copy) (← job.mintParams params (callable copy))
        register id copy)
      (do
        let copy ← mint r
        setParamList (callable copy) (← job'.mintParams params (callable copy))
        register id copy) fun _ => True := by
  refine (twin_mint r).bind fun copy hnew => ?_
  refine (h.mintParams hparams (callable copy)).bind fun copies _ => ?_
  refine (twin_setParamList (hcallable copy ▸ hnew) copies).bind fun _ _ => ?_
  exact twin_register id copy

/-- To mint the copy of a function side by side. -/
theorem Twins.mintFunction {function : FunctionId}
    (hf : table.PermitsCallable allowed (.fn function)) :
    Twin table R (job.mintFunction function) (job'.mintFunction function) fun _ => True := by
  obtain ⟨hown, hparams⟩ := hf
  refine (twin_record function).bind fun r hr => ?_
  have htypes := hown r hr
  dsimp only
  rw [h.target]
  split
  · exact twin_reject_bind _
  · refine (h.freshName r.name).bind fun name _ => ?_
    refine (h.substituted (htypes _ (.head _))).bind fun returnType _ => ?_
    refine (h.substitutedOption fun u hu => htypes u (.tail _ (List.mem_append_left _ hu))).bind
      fun extensionReceiver _ => ?_
    exact h.declare function (_ : FunctionRecord) .fn (fun _ => rfl) (hparams r hr)

/-- To mint the copy of a constructor side by side. -/
theorem Twins.mintConstructor {constructor : ConstructorId}
    (hc : table.PermitsCallable allowed (.ctor constructor)) :
    Twin table R (job.mintConstructor constructor) (job'.mintConstructor constructor)
      fun _ => True := by
  obtain ⟨hown, hparams⟩ := hc
  refine (twin_record constructor).bind fun r hr => twin_copies.bind fun map _ => ?_
  have htypes := hown r hr
  split
  · dsimp only
    split
    · exact twin_reject_bind _
    · refine (h.substituted (htypes _ (.head _))).bind fun returnType _ => ?_
      refine (h.substitutedOption fun u hu => htypes u (.tail _ hu)).bind
        fun dispatchReceiver _ => ?_
      exact h.declare constructor (_ : ConstructorRecord) .ctor (fun _ => rfl) (hparams r hr)
  · exact twin_reject _

/-- To mint the copy of an operator side by side. -/
theorem Twins.mintInvoke {invoke : FunctionId} (hi : table.PermitsCallable allowed (.fn invoke)) :
    Twin table R (job.mintInvoke invoke) (job'.mintInvoke invoke) fun _ => True := by
  obtain ⟨hown, hparams⟩ := hi
  refine (twin_record invoke).bind fun r hr => ?_
  refine (h.substituted (hown r hr _ (.head _))).bind fun returnType _ => ?_
  exact h.declare invoke (_ : FunctionRecord) .fn (fun _ => rfl) (hparams r hr)

/-- To mint the copy of a variable side by side. -/
theorem Twins.mintVariable {variableId : VariableId} (hv : table.Permits allowed variableId) :
    Twin table R (job.mintVariable variableId) (job'.mintVariable variableId) fun _ => True := by
  refine (twin_record variableId).bind fun r hr => ?_
  rw [h.target]
  refine (h.freshName r.name).bind fun name _ => ?_
  refine (h.substituted (hv r hr _ (.head _))).bind fun ty _ => ?_
  exact (twin_mint _).bind fun copy _ => twin_register variableId copy

/-- A node other than a class is dealt with alike. -/
theorem Twins.mintOwn {n : Node} (hn : n.Permitted table allowed) :
    Twin table R (job.mintOwn n) (job'.mintOwn n) fun _ => True := by
  obtain ⟨-, hn⟩ := hn
  unfold CopyJob.mintOwn
  split
  · exact h.mintFunction hn
  · exact h.mintConstructor hn
  · exact h.mintVariable hn
  · refine (twin_record _).bind fun r hr => twin_copies.bind fun map _ => ?_
    split
    · rename_i hinvoke
      exact h.mintInvoke (hn ⟨r, hr, (Bool.and_eq_true_iff.1 hinvoke).1⟩)
    · exact Parallel.pure trivial
  · exact Parallel.pure trivial

/-! ### Classes -/

/-- To copy the supertypes of a class side by side. -/
theorem Twins.copySupertypes {r : ClassRecord} (hr : ∀ t ∈ r.supertypes, allowed t) :
    Twin table R (job.copySupertypes r) (job'.copySupertypes r) fun _ => True := by
  unfold CopyJob.copySupertypes
  rw [h.supertypes]
  split
  · exact Parallel.mapM fun t ht => h.substituted (hr t ht)
  · exact Parallel.pure trivial

/-- The copy of a class is none of the table. -/
theorem Twins.openClass {cls : ClassId} (hcls : table.Permits allowed cls) :
    Twin table R (job.openClass cls) (job'.openClass cls)
      fun opened => ¬ table.Allocated opened.2.symbol := by
  rw [openClass_eq, openClass_eq]
  refine (twin_record cls).bind fun r hr => ?_
  refine (h.copySupertypes (hcls r hr)).bind fun supertypes _ => ?_
  unfold mintClass
  rw [h.target]
  refine (h.freshName r.name).bind fun name _ => ?_
  refine (twin_mint (k := .cls) _).bind fun copy hnew => ?_
  exact (twin_register cls copy).bind fun _ _ => Parallel.pure hnew

omit h in
/-- To read the copy of a constructor side by side. -/
theorem twin_copiedConstructor (cls : ClassId) (constructor : ConstructorId) :
    Twin table R (copiedConstructor cls constructor) (copiedConstructor cls constructor)
      fun _ => True := by
  refine twin_copies.bind fun map _ => ?_
  split
  · exact Parallel.pure trivial
  · exact twin_reject _

omit h in
/-- To close a class side by side, if its copy is new. -/
theorem twin_closeClass (cls : ClassId) (r : ClassRecord) {copy : ClassId}
    (hnew : ¬ table.Allocated copy.symbol) :
    Twin table R (closeClass cls r copy) (closeClass cls r copy) fun _ => True := by
  refine (Parallel.mapM fun c _ => twin_copiedConstructor cls c).bind fun constructors _ => ?_
  refine (Parallel.option_mapM fun c _ => twin_copiedConstructor cls c).bind fun primary _ => ?_
  exact twin_complete hnew _

/-- **The first passes end alike.** -/
theorem Twins.copyDeclarations (n : Node)
    (hn : ∀ m ∈ n :: n.descendants, m.Permitted table allowed) :
    Twin table R (job.copyDeclarations n) (job'.copyDeclarations n) fun _ => True := by
  induction n using Node.induction_children with
  | step n ih =>
    have below : Twin table R (forM n.children job.copyDeclarations)
        (forM n.children job'.copyDeclarations) fun _ => True := by
      refine Parallel.forM fun c hc => ih c hc fun m hm => hn m (.tail _ ?_)
      rw [Node.descendants_eq]
      exact List.mem_flatMap.2 ⟨c, hc, hm⟩
    have hown := hn n (.head _)
    rw [copyDeclarations_eq, copyDeclarations_eq]
    split
    · refine (h.openClass hown.2).bind fun opened hnew => ?_
      exact below.bind fun _ _ => twin_closeClass _ opened.1 hnew
    · exact (h.mintOwn hown).bind fun _ _ => below

/-! ### The second pass -/

/-- To substitute in type arguments side by side. -/
theorem Twins.substituteArgs {args : Option TypeArguments}
    (hargs : ∀ e ∈ args.elim [] TypeArguments.entries, allowed e.2) :
    Twin table R (job.substituteArgs args) (job'.substituteArgs args) fun _ => True := by
  cases args with
  | none => exact Parallel.pure trivial
  | some args =>
    have hentries : Twin table R
        (args.entries.mapM fun e => return (e.1, ← job.substitute e.2))
        (args.entries.mapM fun e => return (e.1, ← job'.substitute e.2)) fun _ => True :=
      Parallel.mapM fun entry hentry =>
        (h.substituted (hargs entry hentry)).bind fun _ _ => Parallel.pure trivial
    have hall : Twin table R (args.mapM job.substitute) (args.mapM job'.substitute)
        fun _ => True := hentries.bind fun entries _ => Parallel.pure trivial
    exact hall.bind fun _ _ => Parallel.pure trivial

/-- To point a node at the copies side by side. -/
theorem Twins.resolve {n : Node} (hn : ∀ t ∈ n.types, allowed t) :
    Twin table R (job.resolve n) (job'.resolve n) fun _ => True := by
  refine twin_copies.bind fun map _ => ?_
  cases n with
  | classDecl | functionDecl | constructorDecl | variableDecl | getValue | setVariable |
    whileLoop => exact Parallel.pure trivial
  | call =>
    refine (h.substituted (hn _ (.head _))).bind fun ty _ => ?_
    refine (h.substituteArgs fun e he => hn _ (.tail _ (List.mem_map_of_mem he))).bind
      fun typeArgs _ => Parallel.pure trivial
  | callableRef =>
    dsimp only
    split
    · exact Parallel.pure trivial
    · refine (h.substituted (hn _ (.head _))).bind fun ty _ => ?_
      refine (h.substituteArgs fun e he => hn _ (.tail _ (List.mem_map_of_mem he))).bind
        fun typeArgs _ => Parallel.pure trivial
  | returnFrom =>
    dsimp only
    split
    · exact Parallel.pure trivial
    · exact (h.substituted (hn _ (.head _))).bind fun ty _ => Parallel.pure trivial
  | block | const | «when» =>
    exact (h.substituted (hn _ (.head _))).bind fun ty _ => Parallel.pure trivial
  | typeOp =>
    refine (h.substituted (hn _ (.head _))).bind fun ty _ => ?_
    exact (h.substituted (hn _ (.tail _ (.head _)))).bind fun operandTy _ => Parallel.pure trivial

/-- A tree is rebuilt alike.  Its root has the types that it had. -/
theorem Twins.rebuildChildren (n : Node) (hn : ∀ m ∈ n.descendants, ∀ t ∈ m.types, allowed t) :
    Twin table R (Node.rebuildChildren job.resolve n) (Node.rebuildChildren job'.resolve n)
      fun n' => n'.types = n.types := by
  induction n using Node.induction_children with
  | step n ih =>
    rw [Node.rebuildChildren_eq, Node.rebuildChildren_eq, map_eq_pure_bind, map_eq_pure_bind]
    refine (Parallel.mapM fun c hc => ?_).bind fun cs _ =>
      Parallel.pure (Node.types_withChildren n cs)
    have hbelow : ∀ m ∈ c :: c.descendants, m ∈ n.descendants := fun m hm =>
      Node.descendants_of_child hc hm
    refine (ih c hc fun m hm => hn m (hbelow m (.tail _ hm))).bind fun c' hc' => ?_
    exact h.resolve fun t ht => hn c (hbelow c (.head _)) t (hc' ▸ ht)

/-- **The second passes end alike.** -/
theorem Twins.redirectReferences (n : Node) (hn : ∀ m ∈ n.descendants, ∀ t ∈ m.types, allowed t) :
    Twin table R (job.redirectReferences n) (job'.redirectReferences n) fun _ => True :=
  (h.rebuildChildren n hn).imp fun _ _ => trivial

end CopyJob

namespace Copier

open CopyM CopyJob

variable {copier : Copier σ} {copier' : Copier σ'}

/-- The second passes end alike. -/
theorem secondPass_parallel {job : CopyJob σ} {job' : CopyJob σ'} (h : job.Twins allowed R job')
    (hoptions : copier'.options = copier.options) {root : Node}
    (hroot : ∀ n ∈ root.descendants, n.Permitted table allowed) :
    Twin table R (copier.secondPass job root) (copier'.secondPass job' root) fun _ => True := by
  refine (h.redirectReferences root fun n hn => (hroot n hn).1).bind fun copy _ => ?_
  refine twin_copies.bind fun map _ => ?_
  dsimp only
  rw [hoptions]
  split
  · split
    · exact twin_reject_bind _
    · exact Parallel.pure trivial
  · exact Parallel.pure trivial

/-- Both passes end alike. -/
theorem passes_parallel {job : CopyJob σ} {job' : CopyJob σ'} (h : job.Twins allowed R job')
    (hoptions : copier'.options = copier.options) {root : Node}
    (hroot : ∀ n ∈ root.descendants, n.Permitted table allowed) :
    Twin table R (copier.passes job root) (copier'.passes job' root) fun _ => True := by
  refine (Parallel.forM fun c hc => h.copyDeclarations c fun m hm => ?_).bind fun _ _ => ?_
  · exact hroot m (Node.descendants_of_child hc hm)
  · exact secondPass_parallel h hoptions hroot

/-- **Copiers whose substitutors do the same for every type that is allowed copy alike.**  They
give the same copy or the same error and leave the same symbols and names, if the types that come
up in the tree are allowed. -/
theorem parallel_copy (copier : Copier σ) (copier' : Copier σ') (program program' : Program)
    (memory : σ) (memory' : σ') (root : Node) (inlined : String)
    (hsymbols : program'.symbols = program.symbols) (hsupply : program'.supply = program.supply)
    (htypes : R (program.pool, memory) (program'.pool, memory'))
    (htarget : copier'.target = copier.target) (hoptions : copier'.options = copier.options)
    (hsubstitute : ∀ t, allowed t → Parallel R (Substitutor.applyOrKeep copier.substitutor t)
      (Substitutor.applyOrKeep copier'.substitutor t) fun _ => True)
    (hroot : ∀ n ∈ root.descendants, n.Permitted program.symbols allowed) :
    EndAlike
      (fun s s' => s'.1.symbols = s.1.symbols ∧ s'.1.supply = s.1.supply ∧
        R (s.1.pool, s.2) (s'.1.pool, s'.2))
      (fun _ => True)
      (copier.copy root inlined (program, memory))
      (copier'.copy root inlined (program', memory')) := by
  have hstart : CopyState.Beside program.symbols R { program, memory }
      { program := program', memory := memory' } :=
    ⟨hsymbols, hsupply, rfl, htypes, .refl _⟩
  have htwins : (copier.job program inlined).Twins allowed R (copier'.job program' inlined) := by
    refine ⟨htarget, ?_, congrArg CopyOptions.supertypes hoptions, hsubstitute⟩
    simp only [job, Program.lookup, hsymbols, hsupply, htarget]
  have hend : EndAlike (CopyState.Beside program.symbols R) (fun _ => True)
      (copier.actions root inlined { program, memory })
      (copier'.actions root inlined { program := program', memory := memory' }) := by
    rw [actions_eq, actions_eq, htarget]
    dsimp only
    rw [hsymbols]
    split
    · exact passes_parallel htwins hoptions hroot _ _ hstart
    · exact .error hstart
  unfold copy
  dsimp only
  revert hend
  generalize copier.actions root inlined { program, memory } = r
  generalize copier'.actions root inlined { program := program', memory := memory' } = r'
  rintro (⟨-, hs⟩ | hs)
  · exact .ok trivial ⟨hs.symbols, hs.supply, hs.types⟩
  · exact .error ⟨hs.symbols, hs.supply, hs.types⟩

end Copier

end Graft
