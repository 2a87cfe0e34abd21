/-
# Surveying a tree

Whether a tree can be copied, and what is wrong with it if it cannot, is decided by the tree
and the records that it mentions.  `Node.survey` finds it out without making any copies: it
goes through the tree as the first pass does and keeps the list of the symbols that would
have copies by then.  The first pass follows the survey (`CopyJob.follows_copyDeclarations`),
whatever substitutor it uses, in whatever larger program it runs and whatever numbers, types
and names it is given there: it rejects the tree for the reason that the survey gives, unless
it runs out of names.  So a copy under a map of parameters succeeds where the survey does and
otherwise fails with the same rejection (`Copier.copy_follows`).
-/

import Graft.Proofs.Copy.Checking

namespace Graft

variable {σ α β γ : Type} {k : Kind}

/-! ### The survey -/

namespace Survey

/-- A symbol is to have a copy; it must not have one already. -/
def claim (keys : List Symbol) (a : Symbol) : Except Rejection (List Symbol) :=
  if a ∈ keys then .error (.declaredTwice a) else .ok (a :: keys)

/-- A callable that is declared is to have a copy, after its parameters. -/
def callable (table : SymbolTable) (keys : List Symbol) (callable : Callable) :
    Except Rejection (List Symbol) :=
  match table.typeParamsOf callable with
  | [] => (table.withParams callable).foldlM claim keys
  | params => .error (.generic callable.symbol params.length)

/-- A constructor that a class lists must have a copy by now. -/
def listed (cls : ClassId) (keys : List Symbol) (constructor : ConstructorId) :
    Except Rejection (List Symbol) :=
  if constructor.symbol ∈ keys then .ok keys else .error (.constructorNotDeclared cls constructor)

/-- What is asked of a node when it is met. -/
def enter (table : SymbolTable) (keys : List Symbol) : Node → Except Rejection (List Symbol)
  | .classDecl _ _ symbol _ => claim keys symbol.symbol
  | .functionDecl _ _ symbol _ => callable table keys (.fn symbol)
  | .constructorDecl _ _ symbol _ =>
    if (table.get? symbol).any fun r => r.cls.symbol ∈ keys then
      callable table keys (.ctor symbol)
    else
      .error (.constructorOutsideClass symbol)
  | .variableDecl _ _ symbol _ => claim keys symbol.symbol
  | .call _ _ _ (.fn callee) .. =>
    if table.isInvoke callee = true ∧ callee.symbol ∉ keys then
      (table.withParams (.fn callee)).foldlM claim keys
    else
      .ok keys
  | _ => .ok keys

/-- What is asked of it when everything below it is done. -/
def leave (table : SymbolTable) (keys : List Symbol) : Node → Except Rejection (List Symbol)
  | .classDecl _ _ symbol _ =>
    match table.get? symbol with
    | some r => (r.constructors ++ r.primary.toList).foldlM (listed symbol) keys
    | none => .ok keys
  | _ => .ok keys

end Survey

namespace Node

/-- Go through a tree, its root included: the symbols that have copies afterwards, if
`keys` have them before, or the reason why the tree cannot be copied. -/
def survey (table : SymbolTable) : Node → List Symbol → Except Rejection (List Symbol) :=
  fold fun n below keys => do
    let keys ← Survey.enter table keys n
    let keys ← below.foldlM (fun keys survey => survey keys) keys
    Survey.leave table keys n

/-- Go through some trees one after the other. -/
def surveyAll (table : SymbolTable) (ns : List Node) (keys : List Symbol) :
    Except Rejection (List Symbol) :=
  ns.foldlM (fun keys n => n.survey table keys) keys

/-- What the survey says of everything below the root of a tree. -/
def surveyBelow (table : SymbolTable) (root : Node) : Except Rejection (List Symbol) :=
  surveyAll table root.children []

/-- The survey of a tree asks of its root, then of its children, and again of its root. -/
theorem survey_eq (table : SymbolTable) (n : Node) (keys : List Symbol) :
    n.survey table keys = (do
      let keys ← Survey.enter table keys n
      let keys ← surveyAll table n.children keys
      Survey.leave table keys n) := by
  rw [survey, fold_eq, ← survey]
  simp only [List.foldlM_map]
  rfl

end Node

/-! ### Following the survey -/

/-- The table has everything that the program's has, and exactly the symbols `keys` have
copies. -/
structure CopyState.At (s : CopyState σ) (program : Program) (keys : List Symbol) : Prop where
  symbols : s.program.symbols.Extends program.symbols
  keys : ∀ a, a ∈ s.map.keys ↔ a ∈ keys

/-- If the copy stopped since the tree was rejected, then for the reason that the survey gives,
or because a name did not fit. -/
def Survey.Explains (result : Except Rejection (List Symbol)) (e : CopyFault) : Prop :=
  ∀ why, e = .rejected why → (∃ full, why = .nameCapacity full) ∨ result = .error why

/-- The copy stopped for the reason that the survey gives, or because a name did not fit. -/
def Survey.Stops (result : Except Rejection (List Symbol)) (e : CopyFault) : Prop :=
  (∃ full, e = .rejected (.nameCapacity full)) ∨ ∃ why, result = .error why ∧ e = .rejected why

/-- Run where the symbols `keys` have copies, the action ends as the survey does; its value is
one of which `P` holds.  It may also stop at a handle that was not allocated. -/
def CopyM.Follows (program : Program) (keys : List Symbol) (m : CopyM σ α)
    (result : Except Rejection (List Symbol)) (P : α → Prop) : Prop :=
  ∀ s : CopyState σ, s.At program keys →
    Ends m s (fun a s' => P a ∧ ∃ keys', result = .ok keys' ∧ s'.At program keys')
      (fun e _ => Survey.Explains result e)

namespace CopyM

variable {program : Program} {keys : List Symbol} {m : CopyM σ α} {f : α → CopyM σ β}
  {result : Except Rejection (List Symbol)} {P : α → Prop} {Q : β → Prop}

namespace Follows

/-- To return a value follows the survey that changes nothing. -/
theorem pure {a : α} (h : P a) : Follows program keys (pure a : CopyM σ α) (.ok keys) P :=
  fun _ hs => ⟨h, keys, rfl, hs⟩

/-- Two actions follow two surveys, one after the other. -/
theorem bind {g : List Symbol → Except Rejection (List Symbol)}
    (hm : Follows program keys m result P)
    (hf : ∀ a keys', result = .ok keys' → P a → Follows program keys' (f a) (g keys') Q) :
    Follows program keys (m >>= f) (result >>= g) Q := by
  intro s hs
  refine Ends.bind ((hm s hs).imp ?_ ?_)
  · rintro a s₁ ⟨ha, keys', rfl, hs₁⟩
    exact hf a keys' rfl ha s₁ hs₁
  · intro e s₁ h why he
    exact (h why he).imp id fun hwhy => congrArg (· >>= g) hwhy

/-- What gives no copies may be done before. -/
theorem after (hm : Follows program keys m (.ok keys) P)
    (hf : ∀ a, P a → Follows program keys (f a) result Q) :
    Follows program keys (m >>= f) result Q := by
  refine hm.bind (g := fun _ => result) fun a keys' hkeys ha => ?_
  obtain rfl := Except.ok.inj hkeys
  exact hf a ha

/-- Actions over a list follow the survey of the list. -/
theorem forM {f : γ → CopyM σ PUnit} {g : List Symbol → γ → Except Rejection (List Symbol)}
    {xs : List γ} (hf : ∀ x ∈ xs, ∀ keys, Follows program keys (f x) (g keys x) fun _ => True)
    (keys : List Symbol) :
    Follows program keys (ForM.forM xs f) (xs.foldlM g keys) fun _ => True := by
  induction xs generalizing keys with
  | nil => exact Follows.pure trivial
  | cons x xs ih =>
    rw [List.forM_cons, List.foldlM_cons]
    exact (hf x (.head _) keys).bind fun _ keys' _ _ => ih (fun y hy => hf y (.tail _ hy)) keys'

/-- Actions over a list with values follow the survey of the list. -/
theorem mapM {f : γ → CopyM σ β} {g : List Symbol → γ → Except Rejection (List Symbol)}
    {xs : List γ} (hf : ∀ x ∈ xs, ∀ keys, Follows program keys (f x) (g keys x) fun _ => True)
    (keys : List Symbol) :
    Follows program keys (xs.mapM f) (xs.foldlM g keys) fun _ => True := by
  induction xs generalizing keys with
  | nil => exact Follows.pure trivial
  | cons x xs ih =>
    rw [List.mapM_cons, List.foldlM_cons]
    refine (hf x (.head _) keys).bind fun _ keys' _ _ => ?_
    rw [← bind_pure (xs.foldlM g keys')]
    exact (ih (fun y hy => hf y (.tail _ hy)) keys').bind fun _ _ _ _ => Follows.pure trivial

/-- What gives no copies may be done over a list. -/
theorem mapM_ok {f : γ → CopyM σ β} {xs : List γ}
    (hf : ∀ x ∈ xs, Follows program keys (f x) (.ok keys) fun _ => True) :
    Follows program keys (xs.mapM f) (.ok keys) fun _ => True := by
  induction xs with
  | nil => exact Follows.pure trivial
  | cons x xs ih =>
    rw [List.mapM_cons]
    exact (hf x (.head _)).after fun _ _ => (ih fun y hy => hf y (.tail _ hy)).after fun _ _ =>
      Follows.pure trivial

/-- An action on a value that may be missing follows the survey of that value. -/
theorem option_mapM {f : γ → CopyM σ β} {g : List Symbol → γ → Except Rejection (List Symbol)}
    {x : Option γ} (hf : ∀ y keys, Follows program keys (f y) (g keys y) fun _ => True)
    (keys : List Symbol) :
    Follows program keys (x.mapM f) (x.toList.foldlM g keys) fun _ => True := by
  cases x with
  | none => exact Follows.pure trivial
  | some y => exact (hf y keys).bind fun _ _ _ _ => Follows.pure trivial

end Follows

/-! ### Single actions -/

/-- A record of the program is read. -/
theorem Follows.record {id : SymbolId k} {r : Record k} (hr : program.symbols.get? id = some r)
    {f : Record k → CopyM σ β} (hf : Follows program keys (f r) result Q) :
    Follows program keys (CopyM.record id >>= f) result Q :=
  fun s hs => Ends.bind (Ends.of_eq_ok (record_of_some (hs.symbols.get? hr)) (hf s hs))

/-- To read the copies gives copies of just the symbols surveyed. -/
theorem follows_copies :
    Follows program keys (copies : CopyM σ CopyMap) (.ok keys)
      (fun map => ∀ a, a ∈ map.keys ↔ a ∈ keys) :=
  fun _ hs => ⟨hs.keys, keys, rfl, hs⟩

/-- To reject the tree follows a survey that stops for the same reason. -/
theorem follows_reject (why : Rejection) :
    Follows program keys (reject why : CopyM σ α) (.error why) P := by
  rintro s - _ ⟨⟩
  exact .inr rfl

/-- What would come after a rejection is not done. -/
theorem follows_reject_bind (why : Rejection) (f : α → CopyM σ β) :
    Follows program keys (reject why >>= f) (.error why) Q := by
  rintro s - _ ⟨⟩
  exact .inr rfl

/-- A record that is added is none of the program. -/
theorem follows_mint (r : Record k) :
    Follows program keys (mint r : CopyM σ (SymbolId k)) (.ok keys)
      (fun copy => ¬ program.symbols.Allocated copy.symbol) := by
  intro s hs
  refine (CopyJob.mint_gains r s).imp ?_ fun _ _ h => h.elim
  rintro copy s' ⟨hg, hnew, -⟩
  refine ⟨mt hs.symbols.allocated hnew, keys, rfl, hs.symbols.trans hg.symbols, fun a => ?_⟩
  rw [hg.gained, hs.keys, or_iff_left List.not_mem_nil]

/-- To register a copy follows a claim. -/
theorem follows_register [k.Copied] (id copy : SymbolId k) :
    Follows program keys (register id copy : CopyM σ Unit) (Survey.claim keys id.symbol)
      fun _ => True := by
  intro s hs
  unfold Ends register Survey.claim
  cases hi : s.map.insert id copy with
  | ok map =>
    have hnot : id.symbol ∉ keys :=
      mt (hs.keys _).2 (CopyMap.copyOf?_eq_none_iff.1 (CopyMap.copyOf?_of_insert hi))
    rw [if_neg hnot]
    refine ⟨trivial, _, rfl, hs.symbols, fun a => ?_⟩
    rw [(CopyMap.keys_insert hi).mem_iff, List.mem_cons, List.mem_cons, hs.keys]
  | error e =>
    unfold CopyMap.insert at hi
    split at hi
    · rename_i hc
      cases hi
      rw [if_pos ((hs.keys _).1 (CopyMap.contains_iff.1 hc))]
      rintro _ ⟨⟩
      exact .inr rfl
    · cases hi

/-- What was added may be completed. -/
theorem follows_setParamList {callable : Callable}
    (hnew : ¬ program.symbols.Allocated callable.symbol) (params : List ParamId) :
    Follows program keys (setParamList callable params : CopyM σ Unit) (.ok keys)
      fun _ => True :=
  fun _ hs => ⟨trivial, keys, rfl, hs.symbols.setParamList hnew params, hs.keys⟩

/-- To complete a record that is new follows the survey that changes nothing. -/
theorem follows_complete {id : SymbolId k} (hnew : ¬ program.symbols.Allocated id.symbol)
    (f : Record k → Record k) :
    Follows program keys (complete id f : CopyM σ Unit) (.ok keys) fun _ => True :=
  fun _ hs => ⟨trivial, keys, rfl, hs.symbols.modify hnew f, hs.keys⟩

end CopyM

namespace CopyJob

open CopyM

variable {program : Program} {keys : List Symbol} (job : CopyJob σ)

/-- To draw a name follows the survey that changes nothing. -/
theorem follows_freshName (base : Name) :
    Follows program keys (job.freshName base) (.ok keys) fun _ => True := by
  intro s hs
  refine (freshName_gains base s).imp ?_ ?_
  · rintro name s' hg
    refine ⟨trivial, keys, rfl, hs.symbols.trans hg.symbols, fun a => ?_⟩
    rw [hg.gained, hs.keys, or_iff_left List.not_mem_nil]
  · rintro e s' ⟨full, rfl⟩ _ ⟨⟩
    exact .inl ⟨full, rfl⟩

/-- Substituting changes types only. -/
theorem follows_substitute (t : TypeId) :
    Follows program keys (job.substitute t) (.ok keys) fun _ => True := by
  intro s hs
  unfold Ends substitute
  dsimp only
  cases Substitutor.applyOrKeep job.substitutor t (s.program.pool, s.memory) with
  | ok t' u => exact ⟨trivial, keys, rfl, hs.symbols, hs.keys⟩
  | error e u => exact nofun

/-- To substitute in a type that may be missing follows the survey that changes nothing. -/
theorem follows_substituteOption (t : Option TypeId) :
    Follows program keys (t.mapM job.substitute) (.ok keys) fun _ => True := by
  cases t with
  | none => exact Follows.pure trivial
  | some t => exact (job.follows_substitute t).after fun _ _ => Follows.pure trivial

section

variable {job} (hclosed : program.Closed)

include hclosed

/-! ### Declarations -/

omit hclosed in
/-- The copy of parameters claims each of them. -/
theorem follows_mintParams {params : List ParamId}
    (hparams : ∀ p ∈ params, program.symbols.Allocated p.symbol) (owner : Callable) :
    Follows program keys (job.mintParams params owner)
      ((params.map SymbolId.symbol).foldlM Survey.claim keys) fun _ => True := by
  rw [List.foldlM_map]
  refine Follows.mapM (fun p hp keys => ?_) keys
  obtain ⟨r, hr⟩ := SymbolTable.allocated_iff.1 (hparams p hp)
  refine Follows.record hr ?_
  refine (job.follows_substitute _).after fun ty _ => ?_
  refine (job.follows_substituteOption _).after fun varargElement _ => ?_
  refine (follows_mint _).after fun copy _ => ?_
  rw [← bind_pure (Survey.claim keys p.symbol)]
  exact (follows_register p copy).bind fun _ _ _ _ => Follows.pure trivial

omit hclosed in
/-- A callable claims its parameters and then itself. -/
theorem follows_declare [k.Copied] (id : SymbolId k) (r : Record k)
    (callable : SymbolId k → Callable) (hcallable : ∀ copy, (callable copy).symbol = copy.symbol)
    {params : List ParamId} (hparams : ∀ p ∈ params, program.symbols.Allocated p.symbol) :
    Follows program keys
      (do
        let copy ← mint r
        setParamList (callable copy) (← job.mintParams params (callable copy))
        register id copy)
      ((params.map SymbolId.symbol ++ [id.symbol]).foldlM Survey.claim keys) fun _ => True := by
  refine (follows_mint r).after fun copy hnew => ?_
  rw [List.foldlM_append]
  refine (follows_mintParams hparams (callable copy)).bind fun copies keys' _ _ => ?_
  refine (follows_setParamList (hcallable copy ▸ hnew) copies).after fun _ _ => ?_
  rw [List.foldlM_cons, ← bind_pure (CopyM.register id copy)]
  exact (follows_register id copy).bind fun _ _ _ _ => Follows.pure trivial

/-- The copy of a function claims what the survey does for it. -/
theorem follows_mintFunction {function : FunctionId}
    (hf : program.symbols.Allocated function.symbol) :
    Follows program keys (job.mintFunction function)
      (Survey.callable program.symbols keys (.fn function)) fun _ => True := by
  obtain ⟨r, hr⟩ := SymbolTable.allocated_iff.1 hf
  have hgeneric : program.symbols.typeParamsOf (.fn function) = r.typeParams := by
    rw [SymbolTable.typeParamsOf, hr]
    rfl
  rw [Survey.callable, hgeneric, SymbolTable.withParams, SymbolTable.paramsOf_fn hr]
  refine Follows.record hr ?_
  dsimp only
  cases hparams : r.typeParams with
  | cons p ps => exact follows_reject_bind _ _
  | nil =>
    refine (job.follows_freshName r.name).after fun name _ => ?_
    refine (job.follows_substitute _).after fun returnType _ => ?_
    refine (job.follows_substituteOption _).after fun extensionReceiver _ => ?_
    refine follows_declare function _ .fn (fun _ => rfl) fun p hp => hclosed.allocated hr ?_
    exact List.mem_append_right _ (List.mem_map_of_mem hp)

/-- The copy of a constructor is asked for its class first. -/
theorem follows_mintConstructor {constructor : ConstructorId} {r : ConstructorRecord}
    (hr : program.symbols.get? constructor = some r) :
    Follows program keys (job.mintConstructor constructor)
      (if r.cls.symbol ∈ keys then Survey.callable program.symbols keys (.ctor constructor)
        else .error (.constructorOutsideClass constructor)) fun _ => True := by
  have hgeneric : program.symbols.typeParamsOf (.ctor constructor) = r.typeParams := by
    rw [SymbolTable.typeParamsOf, hr]
    rfl
  rw [Survey.callable, hgeneric, SymbolTable.withParams, SymbolTable.paramsOf_ctor hr]
  refine Follows.record hr (follows_copies.after fun map hmap => ?_)
  dsimp only
  cases hget : map.get? r.cls with
  | none =>
    rw [if_neg (mt (hmap _).2 (CopyMap.get?_eq_none_iff.1 hget))]
    exact follows_reject _
  | some cls =>
    rw [if_pos ((hmap _).1 (CopyMap.mem_keys_of_get? hget))]
    dsimp only
    cases hparams : r.typeParams with
    | cons p ps => exact follows_reject_bind _ _
    | nil =>
      refine (job.follows_substitute _).after fun returnType _ => ?_
      refine (job.follows_substituteOption _).after fun dispatchReceiver _ => ?_
      refine follows_declare constructor _ .ctor (fun _ => rfl) fun p hp => hclosed.allocated hr ?_
      exact .tail _ (List.mem_append_right _ (List.mem_map_of_mem hp))

/-- The copy of an operator claims its parameters and then the operator. -/
theorem follows_mintInvoke {invoke : FunctionId} {r : FunctionRecord}
    (hr : program.symbols.get? invoke = some r) :
    Follows program keys (job.mintInvoke invoke)
      ((program.symbols.withParams (.fn invoke)).foldlM Survey.claim keys) fun _ => True := by
  rw [SymbolTable.withParams, SymbolTable.paramsOf_fn hr]
  refine Follows.record hr ?_
  refine (job.follows_substitute _).after fun returnType _ => ?_
  refine follows_declare invoke _ .fn (fun _ => rfl) fun p hp => hclosed.allocated hr ?_
  exact List.mem_append_right _ (List.mem_map_of_mem hp)

omit hclosed in
/-- The copy of a variable claims the variable. -/
theorem follows_mintVariable {variableId : VariableId}
    (hv : program.symbols.Allocated variableId.symbol) :
    Follows program keys (job.mintVariable variableId) (Survey.claim keys variableId.symbol)
      fun _ => True := by
  obtain ⟨r, hr⟩ := SymbolTable.allocated_iff.1 hv
  refine Follows.record hr ((job.follows_freshName r.name).after fun name _ => ?_)
  refine (job.follows_substitute _).after fun ty _ => ?_
  exact (follows_mint _).after fun copy _ => follows_register variableId copy

/-- A node other than a class asks for all that it does when it is met. -/
theorem follows_mintOwn {n : Node} (hn : n.KnownTo program)
    (hclass : ∀ span origin symbol members, n ≠ .classDecl span origin symbol members) :
    Follows program keys (job.mintOwn n) (Survey.enter program.symbols keys n) fun _ => True := by
  cases n with
  | classDecl => exact (hclass _ _ _ _ rfl).elim
  | functionDecl => exact follows_mintFunction hclosed (hn.mention (.head _))
  | constructorDecl span origin symbol body =>
    obtain ⟨r, hr⟩ := SymbolTable.allocated_iff.1 (hn.mention (.head _))
    simp only [Survey.enter, hr, Option.any_some, decide_eq_true_eq]
    exact follows_mintConstructor hclosed hr
  | variableDecl => exact follows_mintVariable (hn.mention (.head _))
  | call span origin ty callee typeArgs superClass dispatch extension args =>
    cases callee with
    | ctor callee => exact Follows.pure trivial
    | fn callee =>
      obtain ⟨r, hr⟩ := SymbolTable.allocated_iff.1 (hn.mention (.head _))
      refine Follows.record hr (follows_copies.after fun map hmap => ?_)
      have hmint : (r.isTypeInvoke && !map.contains callee) = true ↔
          program.symbols.isInvoke callee = true ∧ callee.symbol ∉ keys := by
        rw [Bool.and_eq_true, Bool.not_eq_true', ← Bool.not_eq_true, CopyMap.contains_iff, hmap,
          SymbolTable.isInvoke_of_get? hr]
      rw [Survey.enter, if_congr hmint.symm rfl rfl]
      split
      · exact follows_mintInvoke hclosed hr
      · exact Follows.pure trivial
  | callableRef | returnFrom | getValue | setVariable | block | const | «when» | whileLoop
  | typeOp => exact Follows.pure trivial

/-! ### Classes -/

omit hclosed in
/-- To copy the supertypes of a class follows the survey that changes nothing. -/
theorem follows_copySupertypes (r : ClassRecord) :
    Follows program keys (job.copySupertypes r) (.ok keys) fun _ => True := by
  unfold copySupertypes
  split
  · exact Follows.mapM_ok fun t _ => job.follows_substitute t
  · exact Follows.pure trivial

omit hclosed in
/-- The copy of a class is none of the program. -/
theorem follows_openClass {cls : ClassId} {r : ClassRecord}
    (hr : program.symbols.get? cls = some r) :
    Follows program keys (job.openClass cls) (Survey.claim keys cls.symbol)
      fun opened => opened.1 = r ∧ ¬ program.symbols.Allocated opened.2.symbol := by
  rw [openClass_eq]
  refine Follows.record hr ?_
  refine (follows_copySupertypes r).after fun supertypes _ => ?_
  refine (job.follows_freshName r.name).after fun name _ => ?_
  refine (follows_mint _).after fun copy hnew => ?_
  rw [← bind_pure (Survey.claim keys cls.symbol)]
  exact (follows_register cls copy).bind fun _ _ _ _ => Follows.pure ⟨rfl, hnew⟩

omit hclosed in
/-- To read the copy of a constructor follows the check that it was listed. -/
theorem follows_copiedConstructor (cls : ClassId) (constructor : ConstructorId) :
    Follows program keys (copiedConstructor cls constructor : CopyM σ ConstructorId)
      (Survey.listed cls keys constructor) fun _ => True := by
  refine follows_copies.after fun map hmap => ?_
  rw [Survey.listed]
  cases hget : map.get? constructor with
  | none =>
    rw [if_neg (mt (hmap _).2 (CopyMap.get?_eq_none_iff.1 hget))]
    exact follows_reject _
  | some copy =>
    rw [if_pos ((hmap _).1 (CopyMap.mem_keys_of_get? hget))]
    exact Follows.pure trivial

omit hclosed in
/-- Closing a class follows the check of the constructors it lists. -/
theorem follows_closeClass (cls : ClassId) (r : ClassRecord) {copy : ClassId}
    (hnew : ¬ program.symbols.Allocated copy.symbol) :
    Follows program keys (closeClass cls r copy : CopyM σ Unit)
      ((r.constructors ++ r.primary.toList).foldlM (Survey.listed cls) keys) fun _ => True := by
  rw [List.foldlM_append]
  refine (Follows.mapM (fun c _ keys => follows_copiedConstructor cls c) keys).bind
    fun constructors keys' _ _ => ?_
  rw [← bind_pure (r.primary.toList.foldlM _ keys')]
  refine (Follows.option_mapM (fun c keys => follows_copiedConstructor cls c) keys').bind
    fun primary _ _ _ => ?_
  exact follows_complete hnew _

/-- **The first pass follows the survey.** -/
theorem follows_copyDeclarations (n : Node) (hn : ∀ m ∈ n :: n.descendants, m.KnownTo program)
    (keys : List Symbol) :
    Follows program keys (job.copyDeclarations n) (n.survey program.symbols keys)
      fun _ => True := by
  induction n using Node.induction_children generalizing keys with
  | step n ih =>
    have below : ∀ keys, Follows program keys (ForM.forM n.children job.copyDeclarations)
        (Node.surveyAll program.symbols n.children keys) fun _ => True :=
      Follows.forM fun c hc keys =>
        ih c hc (fun m hm => hn m (.tail _ (Node.descendants_of_child hc hm))) keys
    rw [copyDeclarations_eq, Node.survey_eq]
    split
    · rename_i span origin cls members
      obtain ⟨r, hr⟩ := SymbolTable.allocated_iff.1 ((hn _ (.head _)).mention (.head _))
      refine (follows_openClass hr).bind ?_
      rintro ⟨_, copy⟩ keys₁ - ⟨rfl, hnew⟩
      refine (below keys₁).bind fun _ keys₂ _ _ => ?_
      rw [Survey.leave, hr]
      exact follows_closeClass cls _ hnew
    · rename_i hclass
      refine (follows_mintOwn hclosed (hn n (.head _)) hclass).bind fun _ keys₁ _ _ => ?_
      have hleave : ∀ keys, Survey.leave program.symbols keys n = .ok keys := by
        intro keys
        cases n with
        | classDecl => exact (hclass _ _ _ _ rfl).elim
        | _ => rfl
      simp only [hleave]
      exact (bind_pure (Node.surveyAll program.symbols n.children keys₁)).symm ▸ below keys₁

/-- Below a root, too. -/
theorem follows_firstPass {root : Node} (hroot : root.ClosedIn program) :
    Follows program [] (ForM.forM root.children job.copyDeclarations)
      (root.surveyBelow program.symbols) fun _ => True :=
  Follows.forM (fun c hc => follows_copyDeclarations hclosed c fun _ hm =>
    hroot.below (Node.descendants_of_child hc hm)) []

end

end CopyJob

/-! ### What a copy says -/

namespace Copier

open CopyM CopyJob

variable {program start : Program} {subst : Option ParamSubst} {target : FunctionId}

/-- **Whether a copy succeeds, and how it fails, can be read from the tree.**  In whatever
program it is made that has grown from one in which the tree is closed, it does what the
survey in that one says, unless it runs out of names. -/
theorem copy_follows (options : CopyOptions) {root : Node} (inlined : String) (memory : σ)
    (hclosed : program.Closed) (hroot : root.ClosedIn program)
    (htarget : program.symbols.Allocated target.symbol)
    (hwithin : ∀ s ∈ subst, s.Within program.pool) (hext : start.Extends program)
    (hstart : start.Closed) :
    Ends ((ofParams target subst options).copy root inlined) (start, memory)
      (fun _ _ => ∃ keys, root.surveyBelow program.symbols = .ok keys)
      (fun e _ => Survey.Stops (root.surveyBelow program.symbols) e) := by
  have hover := over_job (σ := σ) target options inlined hstart
    fun s hs => (hwithin s hs).extends_ hext.pool
  have hroot' := hroot.wider hext.wider
  refine copy_ends (actions_ends _ (fun _ => ?_) fun hnot => ?_)
  · have hpasses := (redirectReferences_check hover hroot' memory).and
      (hover.firstPass_ends hroot' memory)
    refine Ends.bind (((follows_firstPass hclosed hroot { program := start, memory }
      ⟨hext.symbols, fun a => iff_of_false (CopyMap.not_mem_keys_empty a) nofun⟩).and
        hpasses).imp ?_ ?_)
    · rintro - s ⟨⟨-, keys, hkeys, -⟩, ⟨copy, s', hcopy, hcheck⟩, -⟩
      exact Ends.of_eq_ok (secondPass_of_ok hcopy hcheck) ⟨keys, hkeys⟩
    · rintro e s ⟨hexplains, -, hfull | ⟨-, why, rfl⟩⟩
      · exact .inl hfull
      · exact (hexplains why rfl).imp (fun ⟨full, hfull⟩ => ⟨full, hfull ▸ rfl⟩)
          fun hwhy => ⟨why, hwhy, rfl⟩
  · exact absurd (hext.symbols.allocated htarget) hnot

end Copier

end Graft
