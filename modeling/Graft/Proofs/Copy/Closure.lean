/-
# A copy keeps the program closed

At all times during a copy over a closed program, the program is closed and has all copies
made so far, the target and the replacements (`CopyState.Intact`).  Every action of the
first pass keeps this, also where it stops half way, and it stops only to reject the tree:
no record is missing (`CopyJob.Safe`, `CopyJob.safe_copyDeclarations`).  A record is added
with the symbols and types that it mentions at hand; the lists that are filled in later
start empty.
-/

import Graft.Proofs.Copy.Lawful
import Graft.Proofs.Program.Wider

namespace Graft

variable {σ α β : Type} {k : Kind}

/-- What holds at all times of a copy over a closed program. -/
structure CopyState.Intact (s : CopyState σ) (job : CopyJob σ) (subst : Option ParamSubst) :
    Prop where
  closed : s.program.Closed
  /-- The copies made so far are there. -/
  copies : ∀ a c, s.map.copyOf? a = some c → s.program.symbols.Allocated c
  target : s.program.symbols.Allocated job.target.symbol
  /-- The top type is there. -/
  top : s.program.pool.Has .any
  within : ∀ p ∈ subst, p.Within s.program.pool
  substitutor : job.substitutor = ParamSubst.substitutor? subst

/-- What is kept by an intact state whose program becomes wider and stays closed. -/
theorem CopyState.Intact.wider {s : CopyState σ} {job : CopyJob σ} {subst : Option ParamSubst}
    (h : s.Intact job subst) {program : Program} (hclosed : program.Closed)
    (hw : s.program.Wider program) : ({ s with program } : CopyState σ).Intact job subst where
  closed := hclosed
  copies a c hc := hw.allocated c (h.copies a c hc)
  target := hw.allocated _ h.target
  top := hw.has _ h.top
  within p hp e he := hw.has _ (h.within p hp e he)
  substitutor := h.substitutor

namespace CopyJob

open CopyM

variable {job : CopyJob σ} {subst : Option ParamSubst} {s : CopyState σ}

/-- Run from `s`, the action leaves an intact state and a wider program.  It gives a value
of which `P` holds in that program, or rejects the tree. -/
def Safe (job : CopyJob σ) (subst : Option ParamSubst) (m : CopyM σ α) (s : CopyState σ)
    (P : α → Program → Prop) : Prop :=
  Ends m s
    (fun a s' => s'.Intact job subst ∧ s.program.Wider s'.program ∧ P a s'.program)
    (fun e s' => s'.Intact job subst ∧ s.program.Wider s'.program ∧ ∃ why, e = .rejected why)

variable {P : α → Program → Prop} {Q : β → Program → Prop}

/-- To return a value is safe. -/
theorem safe_pure (hs : s.Intact job subst) {a : α} (ha : P a s.program) :
    job.Safe subst (pure a) s P := ⟨hs, .refl _, ha⟩

/-- The second action runs from a wider program. -/
theorem Safe.bind {m : CopyM σ α} {f : α → CopyM σ β} (hm : job.Safe subst m s P)
    (hf : ∀ a s', s'.Intact job subst → s.program.Wider s'.program → P a s'.program →
      job.Safe subst (f a) s' Q) : job.Safe subst (m >>= f) s Q := by
  refine Ends.bind (Ends.imp hm (fun a s' ⟨hs', hw, ha⟩ => ?_) fun _ _ h => h)
  refine Ends.imp (hf a s' hs' hw ha) ?_ ?_
  · rintro b s'' ⟨hs'', hw', hb⟩
    exact ⟨hs'', hw.trans hw', hb⟩
  · rintro e s'' ⟨hs'', hw', hwhy⟩
    exact ⟨hs'', hw.trans hw', hwhy⟩

/-- What a safe action is known to give may be weakened. -/
theorem Safe.imp {P' : α → Program → Prop} {m : CopyM σ α} (hm : job.Safe subst m s P)
    (h : ∀ a program, P a program → P' a program) : job.Safe subst m s P' :=
  Ends.imp hm (fun a s' ⟨hs', hw, ha⟩ => ⟨hs', hw, h a s'.program ha⟩) fun _ _ h => h

/-- Over a list: what holds of each value goes on to hold in wider programs. -/
theorem Safe.mapM (hs : s.Intact job subst) {f : β → CopyM σ α} {xs : List β}
    (hP : ∀ a p p', Program.Wider p p' → P a p → P a p')
    (hf : ∀ x ∈ xs, ∀ s', s'.Intact job subst → s.program.Wider s'.program →
      job.Safe subst (f x) s' P) :
    job.Safe subst (xs.mapM f) s fun as program => ∀ a ∈ as, P a program := by
  refine Ends.mapM (I := fun _ as (s' : CopyState σ) =>
    s'.Intact job subst ∧ s.program.Wider s'.program ∧
    ∀ a ∈ as, P a s'.program) xs ⟨hs, .refl _, nofun⟩ ?_
  rintro done x rest hxs as s₁ ⟨hs₁, hw, has⟩
  have hx : x ∈ xs := by simp [hxs]
  refine Ends.imp (hf x hx s₁ hs₁ hw) ?_ ?_
  · rintro a s₂ ⟨hs₂, hw₂, ha⟩
    refine ⟨hs₂, hw.trans hw₂, fun b hb => ?_⟩
    rcases List.mem_append.1 hb with hb | hb
    · exact hP b _ _ hw₂ (has b hb)
    · rwa [List.mem_singleton.1 hb]
  · rintro e s₂ ⟨hs₂, hw₂, hwhy⟩
    exact ⟨hs₂, hw.trans hw₂, hwhy⟩

/-- A safe action on a value that may be missing is safe. -/
theorem Safe.option_mapM (hs : s.Intact job subst) {f : β → CopyM σ α} {x : Option β}
    (hf : ∀ y ∈ x, job.Safe subst (f y) s P) :
    job.Safe subst (x.mapM f) s fun a program => ∀ b ∈ a, P b program := by
  cases x with
  | none => exact safe_pure hs nofun
  | some y =>
    refine Safe.bind (hf y rfl) fun a s' hs' _ ha => safe_pure hs' fun b hb => ?_
    rwa [← Option.some.inj hb]

/-- Safe actions over a list, one after another, are safe. -/
theorem Safe.forM (hs : s.Intact job subst) {f : β → CopyM σ PUnit} {xs : List β}
    (hf : ∀ x ∈ xs, ∀ s', s'.Intact job subst → s.program.Wider s'.program →
      job.Safe subst (f x) s' fun _ _ => True) :
    job.Safe subst (ForM.forM xs f) s fun _ _ => True := by
  refine (Ends.forM
    (I := fun _ (s' : CopyState σ) => s'.Intact job subst ∧ s.program.Wider s'.program) xs
    ⟨hs, .refl _⟩ ?_).imp (fun _ _ ⟨hs', hw⟩ => ⟨hs', hw, True.intro⟩) fun _ _ h => h
  rintro done x rest hxs s₁ ⟨hs₁, hw⟩
  have hx : x ∈ xs := by simp [hxs]
  refine Ends.imp (hf x hx s₁ hs₁ hw) ?_ ?_
  · rintro - s₂ ⟨hs₂, hw₂, -⟩
    exact ⟨hs₂, hw.trans hw₂⟩
  · rintro e s₂ ⟨hs₂, hw₂, hwhy⟩
    exact ⟨hs₂, hw.trans hw₂, hwhy⟩

/-! ### Single actions -/

/-- To reject a tree is safe. -/
theorem safe_reject (hs : s.Intact job subst) (why : Rejection) :
    job.Safe subst (reject why : CopyM σ α) s P := ⟨hs, .refl _, why, rfl⟩

/-- What would come after a rejection is not done. -/
theorem safe_reject_bind (hs : s.Intact job subst) (why : Rejection) (f : α → CopyM σ β) :
    job.Safe subst (reject why >>= f) s Q := ⟨hs, .refl _, why, rfl⟩

/-- A record that is read is known. -/
theorem safe_record (hs : s.Intact job subst) {id : SymbolId k}
    (hid : s.program.symbols.Allocated id.symbol) :
    job.Safe subst (record id) s fun r program => Record.KnownTo program k r := by
  obtain ⟨r, hr⟩ := SymbolTable.allocated_iff.1 hid
  exact Ends.of_eq_ok (record_of_some hr) ⟨hs, .refl _, hs.closed.knownTo hr⟩

/-- To read the copies is safe, and they are all records of the table. -/
theorem safe_copies (hs : s.Intact job subst) :
    job.Safe subst copies s fun map program =>
      ∀ a c, map.copyOf? a = some c → program.symbols.Allocated c :=
  ⟨hs, .refl _, hs.copies⟩

/-- A type of the program becomes a type of the program. -/
theorem safe_substitute (hs : s.Intact job subst) {t : TypeId} (ht : s.program.pool.Has t) :
    job.Safe subst (job.substitute t) s fun t' program => program.pool.Has t' := by
  have htotal := ParamSubst.applyOrKeep_total hs.within ht hs.closed.ordered s.memory
  have hends := ParamSubst.applyOrKeep_ends subst t s.program.pool s.memory
  unfold Safe Ends substitute
  dsimp only
  rw [hs.substitutor]
  cases ha : Substitutor.applyOrKeep (ParamSubst.substitutor? subst) t
      (s.program.pool, s.memory) with
  | ok t' u =>
    obtain ⟨pool, memory⟩ := u
    obtain ⟨rfl, hg, -⟩ := hends.ok_of_eq ha
    exact ⟨hs.wider (hs.closed.withPool hg) (Program.wider_withPool hg),
      Program.wider_withPool hg, (htotal.ok_of_eq ha).1⟩
  | error e u => exact (htotal.err_of_eq ha).elim

/-- To substitute in a type that may be missing is safe. -/
theorem safe_substituteOption (hs : s.Intact job subst) {t : Option TypeId}
    (ht : ∀ u ∈ t.toList, s.program.pool.Has u) :
    job.Safe subst (t.mapM job.substitute) s fun t' program => ∀ u ∈ t'.toList,
      program.pool.Has u := by
  have hall : ∀ u ∈ t, job.Safe subst (job.substitute u) s fun t' program => program.pool.Has t' :=
    fun u hu => safe_substitute hs (ht u (Option.mem_toList.2 hu))
  exact (Safe.option_mapM hs hall).imp fun a program h u hu => h u (Option.mem_toList.1 hu)

/-- To draw a name is safe. -/
theorem safe_freshName (hs : s.Intact job subst) (base : Name) :
    job.Safe subst (job.freshName base) s fun _ _ => True := by
  have hkept : ∀ supply, s.program.Wider { s.program with supply } := fun _ =>
    ⟨fun _ h => h, fun _ h => h⟩
  refine (freshName_ends base s).imp ?_ ?_
  · rintro name s' ⟨supply, rfl, -⟩
    exact ⟨hs.wider (hs.closed.withSupply supply) (hkept supply), hkept supply, True.intro⟩
  · rintro e s' ⟨⟨full, rfl⟩, supply, rfl, -⟩
    exact ⟨hs.wider (hs.closed.withSupply supply) (hkept supply), hkept supply, _, rfl⟩

/-- A record that is known may be added. -/
theorem safe_mint (hs : s.Intact job subst) {r : Record k} (hr : Record.KnownTo s.program k r) :
    job.Safe subst (mint r) s fun copy program => program.symbols.Allocated copy.symbol := by
  have hw := s.program.wider_add r
  exact ⟨hs.wider (hs.closed.add hr) hw, hw,
    SymbolTable.allocated_iff.2 ⟨r, s.program.symbols.get?_add_self r⟩⟩

/-- A callable may be completed with parameters that are there. -/
theorem safe_setParamList (hs : s.Intact job subst) (callable : Callable) {params : List ParamId}
    (hparams : ∀ p ∈ params, s.program.symbols.Allocated p.symbol) :
    job.Safe subst (setParamList callable params) s fun _ _ => True := by
  have hsymbols : ∀ a ∈ params.map SymbolId.symbol, s.program.symbols.Allocated a := by
    simpa using hparams
  cases callable with
  | fn id =>
    refine ⟨hs.wider (hs.closed.modify fun r hr => ⟨?_, hr.types⟩) (s.program.wider_modify id _),
      s.program.wider_modify id _, True.intro⟩
    exact List.forall_mem_append.2 ⟨(List.forall_mem_append.1 hr.symbols).1, hsymbols⟩
  | ctor id =>
    refine ⟨hs.wider (hs.closed.modify fun r hr => ⟨?_, hr.types⟩) (s.program.wider_modify id _),
      s.program.wider_modify id _, True.intro⟩
    obtain ⟨hcls, hrest⟩ := List.forall_mem_cons.1 hr.symbols
    exact List.forall_mem_cons.2 ⟨hcls, List.forall_mem_append.2
      ⟨(List.forall_mem_append.1 hrest).1, hsymbols⟩⟩

/-- To register a record of the table as a copy is safe. -/
theorem safe_register [k.Copied] (hs : s.Intact job subst) (id : SymbolId k) {copy : SymbolId k}
    (hcopy : s.program.symbols.Allocated copy.symbol) :
    job.Safe subst (register id copy) s fun _ _ => True := by
  unfold Safe Ends register
  cases h : s.map.insert id copy with
  | ok map =>
    refine ⟨⟨hs.closed, fun a c hc => ?_, hs.target, hs.top, hs.within,
      hs.substitutor⟩, .refl _, trivial⟩
    change map.copyOf? a = some c at hc
    rw [CopyMap.copyOf?_insert h] at hc
    split at hc
    · exact Option.some.inj hc ▸ hcopy
    · exact hs.copies a c hc
  | error why => exact ⟨hs, .refl _, why, rfl⟩

/-! ### Declarations -/

/-- The parameters of a callable that is there can be copied for a callable that is there. -/
theorem safe_mintParams (hs : s.Intact job subst) {params : List ParamId} {owner : Callable}
    (hparams : ∀ p ∈ params, s.program.symbols.Allocated p.symbol)
    (howner : s.program.symbols.Allocated owner.symbol) :
    job.Safe subst (job.mintParams params owner) s fun copies program =>
      ∀ c ∈ copies, program.symbols.Allocated c.symbol := by
  refine Safe.mapM hs (fun c p p' hw hc => hw.allocated _ hc) fun param hp s₁ hs₁ hw₁ => ?_
  have hparam := hw₁.allocated _ (hparams param hp)
  refine (safe_record hs₁ hparam).bind fun r s₂ hs₂ hw₂ hr => ?_
  refine (safe_substitute hs₂ (hr.types _ (.head _))).bind fun ty s₃ hs₃ hw₃ hty => ?_
  have hr₃ := hr.wider hw₃
  refine (safe_substituteOption hs₃ fun u hu => hr₃.types u (.tail _ hu)).bind
    fun varargElement s₄ hs₄ hw₄ hvararg => ?_
  have hr₄ := hr₃.wider hw₄
  have hw₁₄ := (hw₂.trans hw₃).trans hw₄
  -- the copy mentions its owner and the parameter that was declared first
  have hroot : s₄.program.symbols.Allocated (r.root param).symbol := by
    cases hd : r.derivedFrom with
    | none =>
      rw [ParamRecord.root, hd]
      exact hw₁₄.allocated _ hparam
    | some q =>
      rw [ParamRecord.root, hd]
      exact hr₄.symbols _ (.tail _ (by rw [hd]; exact .head _))
  have hknown : Record.KnownTo s₄.program .param
      { r with owner, derivedFrom := some (r.root param), ty, varargElement } := by
    refine ⟨?_, List.forall_mem_cons.2 ⟨hw₄.has _ hty, hvararg⟩⟩
    refine List.forall_mem_cons.2 ⟨(hw₁.trans hw₁₄).allocated _ howner, ?_⟩
    simpa using hroot
  refine (safe_mint hs₄ hknown).bind fun copy s₅ hs₅ _ hcopy => ?_
  refine (safe_register hs₅ param hcopy).bind fun _ s₆ hs₆ hw₆ _ => ?_
  exact safe_pure hs₆ (hw₆.allocated _ hcopy)

/-- A callable is completed with its parameters and then recorded. -/
theorem safe_finish [k.Copied] (hs : s.Intact job subst) (id : SymbolId k) {copy : SymbolId k}
    (callable : Callable) (hcallable : callable.symbol = copy.symbol) {params : List ParamId}
    (hparams : ∀ p ∈ params, s.program.symbols.Allocated p.symbol)
    (hcopy : s.program.symbols.Allocated copy.symbol) :
    job.Safe subst (do
      setParamList callable (← job.mintParams params callable)
      register id copy) s fun _ _ => True := by
  refine (safe_mintParams hs hparams (hcallable ▸ hcopy)).bind fun copies s₁ hs₁ hw₁ hcopies => ?_
  refine (safe_setParamList hs₁ callable hcopies).bind fun _ s₂ hs₂ hw₂ _ => ?_
  exact safe_register hs₂ id ((hw₁.trans hw₂).allocated _ hcopy)

/-- To mint the copy of a function is safe. -/
theorem safe_mintFunction (hs : s.Intact job subst) {function : FunctionId}
    (hf : s.program.symbols.Allocated function.symbol) :
    job.Safe subst (job.mintFunction function) s fun _ _ => True := by
  refine (safe_record hs hf).bind fun r s₁ hs₁ hw₁ hr => ?_
  dsimp only
  split
  · exact safe_reject_bind hs₁ _ _
  · refine (safe_freshName hs₁ r.name).bind fun name s₂ hs₂ hw₂ _ => ?_
    have hr₂ := hr.wider hw₂
    refine (safe_substitute hs₂ (hr₂.types _ (.head _))).bind
      fun returnType s₃ hs₃ hw₃ hreturn => ?_
    have hr₃ := hr₂.wider hw₃
    refine (safe_substituteOption hs₃ fun u hu =>
      hr₃.types u (.tail _ (List.mem_append_left _ hu))).bind
        fun extensionReceiver s₄ hs₄ hw₄ hextension => ?_
    have hknown : Record.KnownTo s₄.program .fn
        { r with
          name
          owner := .fn job.target
          kind := .synthesized
          typeParams := []
          params := []
          returnType
          extensionReceiver
          dispatchReceiver := none
          isInline := false } := by
      refine ⟨List.forall_mem_cons.2 ⟨hs₄.target, by simp⟩, ?_⟩
      refine List.forall_mem_cons.2 ⟨hw₄.has _ hreturn, ?_⟩
      exact List.forall_mem_append.2 ⟨hextension, fun _ ht => absurd ht List.not_mem_nil⟩
    refine (safe_mint hs₄ hknown).bind fun copy s₅ hs₅ hw₅ hcopy => ?_
    have hr₅ := (hr₃.wider hw₄).wider hw₅
    refine safe_finish hs₅ function (.fn copy) rfl (fun p hp => hr₅.symbols _ ?_) hcopy
    exact List.mem_append_right _ (List.mem_map_of_mem hp)

/-- To mint the copy of a constructor is safe. -/
theorem safe_mintConstructor (hs : s.Intact job subst) {constructor : ConstructorId}
    (hc : s.program.symbols.Allocated constructor.symbol) :
    job.Safe subst (job.mintConstructor constructor) s fun _ _ => True := by
  refine (safe_record hs hc).bind fun r s₁ hs₁ hw₁ hr => ?_
  refine (safe_copies hs₁).bind fun map s₂ hs₂ hw₂ hmap => ?_
  split
  · rename_i cls hcls
    have hclass : s₂.program.symbols.Allocated cls.symbol :=
      hmap _ _ (CopyMap.copyOf?_of_get? hcls)
    dsimp only
    split
    · exact safe_reject_bind hs₂ _ _
    · have hr₂ := hr.wider hw₂
      refine (safe_substitute hs₂ (hr₂.types _ (.head _))).bind
        fun returnType s₃ hs₃ hw₃ hreturn => ?_
      have hr₃ := hr₂.wider hw₃
      refine (safe_substituteOption hs₃ fun u hu => hr₃.types u (.tail _ hu)).bind
        fun dispatchReceiver s₄ hs₄ hw₄ hdispatch => ?_
      have hknown : Record.KnownTo s₄.program .ctor
          { r with cls, typeParams := [], params := [], returnType, dispatchReceiver } := by
        refine ⟨List.forall_mem_cons.2 ⟨(hw₃.trans hw₄).allocated _ hclass, by simp⟩, ?_⟩
        exact List.forall_mem_cons.2 ⟨hw₄.has _ hreturn, hdispatch⟩
      refine (safe_mint hs₄ hknown).bind fun copy s₅ hs₅ hw₅ hcopy => ?_
      have hr₅ := (hr₃.wider hw₄).wider hw₅
      refine safe_finish hs₅ constructor (.ctor copy) rfl (fun p hp => hr₅.symbols _ ?_) hcopy
      exact .tail _ (List.mem_append_right _ (List.mem_map_of_mem hp))
  · exact safe_reject hs₂ _

/-- The copy of an `invoke` operator keeps the owner and the type parameters. -/
theorem safe_mintInvoke (hs : s.Intact job subst) {invoke : FunctionId}
    (hi : s.program.symbols.Allocated invoke.symbol) :
    job.Safe subst (job.mintInvoke invoke) s fun _ _ => True := by
  refine (safe_record hs hi).bind fun r s₁ hs₁ hw₁ hr => ?_
  refine (safe_substitute hs₁ (hr.types _ (.head _))).bind
    fun returnType s₂ hs₂ hw₂ hreturn => ?_
  have hr₂ := hr.wider hw₂
  have hknown : Record.KnownTo s₂.program .fn { r with returnType, params := [] } := by
    refine ⟨?_, List.forall_mem_cons.2 ⟨hreturn, fun u hu => hr₂.types u (.tail _ hu)⟩⟩
    exact List.forall_mem_append.2 ⟨(List.forall_mem_append.1 hr₂.symbols).1, nofun⟩
  refine (safe_mint hs₂ hknown).bind fun copy s₃ hs₃ hw₃ hcopy => ?_
  refine safe_finish hs₃ invoke (.fn copy) rfl (fun p hp => (hr₂.wider hw₃).symbols _ ?_) hcopy
  exact List.mem_append_right _ (List.mem_map_of_mem hp)

/-- To mint the copy of a variable is safe. -/
theorem safe_mintVariable (hs : s.Intact job subst) {variableId : VariableId}
    (hv : s.program.symbols.Allocated variableId.symbol) :
    job.Safe subst (job.mintVariable variableId) s fun _ _ => True := by
  refine (safe_record hs hv).bind fun r s₁ hs₁ hw₁ hr => ?_
  refine (safe_freshName hs₁ r.name).bind fun name s₂ hs₂ hw₂ _ => ?_
  refine (safe_substitute hs₂ ((hr.wider hw₂).types _ (.head _))).bind fun ty s₃ hs₃ _ hty => ?_
  have hknown : Record.KnownTo s₃.program .var { r with name, owner := .fn job.target, ty } :=
    ⟨List.forall_mem_cons.2 ⟨hs₃.target, nofun⟩, List.forall_mem_cons.2 ⟨hty, nofun⟩⟩
  exact (safe_mint hs₃ hknown).bind fun copy s₄ hs₄ _ hcopy => safe_register hs₄ variableId hcopy

/-- To mint what a node declares itself is safe. -/
theorem safe_mintOwn (hs : s.Intact job subst) {n : Node} (hn : n.KnownTo s.program) :
    job.Safe subst (job.mintOwn n) s fun _ _ => True := by
  cases n with
  | functionDecl => exact safe_mintFunction hs (hn.mention (.head _))
  | constructorDecl => exact safe_mintConstructor hs (hn.mention (.head _))
  | variableDecl => exact safe_mintVariable hs (hn.mention (.head _))
  | call span origin ty callee =>
    cases callee with
    | ctor callee => exact safe_pure hs True.intro
    | fn callee =>
      have hcallee : s.program.symbols.Allocated callee.symbol := hn.mention (.head _)
      refine (safe_record hs hcallee).bind fun r s₁ hs₁ hw₁ _ => ?_
      refine (safe_copies hs₁).bind fun map s₂ hs₂ hw₂ _ => ?_
      split
      · exact safe_mintInvoke hs₂ ((hw₁.trans hw₂).allocated _ hcallee)
      · exact safe_pure hs₂ True.intro
  | classDecl | callableRef | returnFrom | getValue | setVariable | block | const | «when»
  | whileLoop | typeOp => exact safe_pure hs True.intro

/-! ### Classes -/

/-- To copy the supertypes of a class is safe. -/
theorem safe_copySupertypes (hs : s.Intact job subst) {r : ClassRecord}
    (hr : ∀ t ∈ r.supertypes, s.program.pool.Has t) :
    job.Safe subst (job.copySupertypes r) s fun ts program => ∀ t ∈ ts, program.pool.Has t := by
  unfold copySupertypes
  split
  · exact Safe.mapM hs (fun t _ _ hw ht => hw.has t ht) fun t ht s₁ hs₁ hw₁ =>
      safe_substitute hs₁ (hw₁.has _ (hr t ht))
  · exact safe_pure hs (List.forall_mem_singleton.2 hs.top)

/-- A class is opened without constructors. -/
theorem safe_openClass (hs : s.Intact job subst) {cls : ClassId}
    (hc : s.program.symbols.Allocated cls.symbol) :
    job.Safe subst (job.openClass cls) s fun opened program =>
      program.symbols.Allocated opened.2.symbol := by
  rw [openClass_eq]
  refine (safe_record hs hc).bind fun r s₁ hs₁ hw₁ hr => ?_
  refine (safe_copySupertypes hs₁ hr.types).bind fun supertypes s₂ hs₂ hw₂ hsupertypes => ?_
  refine (safe_freshName hs₂ r.name).bind fun name s₃ hs₃ hw₃ _ => ?_
  have hr₃ := (hr.wider hw₂).wider hw₃
  have hknown : Record.KnownTo s₃.program .cls
      { r with name, owner := .fn job.target, supertypes, constructors := [], primary := none } := by
    refine ⟨?_, fun t ht => hw₃.has _ (hsupertypes t ht)⟩
    obtain ⟨hhead, -⟩ := List.forall_mem_append.1 hr₃.symbols
    exact List.forall_mem_append.2 ⟨List.forall_mem_append.2
      ⟨List.forall_mem_cons.2 ⟨hs₃.target, nofun⟩, (List.forall_mem_append.1 hhead).2⟩, nofun⟩
  refine (safe_mint hs₃ hknown).bind fun copy s₄ hs₄ _ hcopy => ?_
  refine (safe_register hs₄ cls hcopy).bind fun _ s₅ hs₅ hw₅ _ => ?_
  exact safe_pure hs₅ (hw₅.allocated _ hcopy)

/-- To read the copy of a constructor is safe. -/
theorem safe_copiedConstructor (hs : s.Intact job subst) (cls : ClassId)
    (constructor : ConstructorId) :
    job.Safe subst (copiedConstructor cls constructor) s fun copy program =>
      program.symbols.Allocated copy.symbol := by
  refine (safe_copies hs).bind fun map s₁ hs₁ _ hmap => ?_
  split
  · rename_i copy hcopy
    exact safe_pure hs₁ (hmap _ _ (CopyMap.copyOf?_of_get? hcopy))
  · exact safe_reject hs₁ _

/-- A class is closed with copies that are there. -/
theorem safe_closeClass (hs : s.Intact job subst) (cls : ClassId) (r : ClassRecord)
    (copy : ClassId) : job.Safe subst (closeClass cls r copy) s fun _ _ => True := by
  have hlisted : job.Safe subst (r.constructors.mapM (copiedConstructor cls)) s
      fun copies program => ∀ c ∈ copies, program.symbols.Allocated c.symbol :=
    Safe.mapM hs (fun c _ _ hw hc => hw.allocated c.symbol hc) fun c _ s₁ hs₁ _ =>
      safe_copiedConstructor hs₁ cls c
  refine hlisted.bind fun constructors s₁ hs₁ hw₁ hconstructors => ?_
  refine (Safe.option_mapM hs₁ fun c _ => safe_copiedConstructor hs₁ cls c).bind
    fun primary s₂ hs₂ hw₂ hprimary => ?_
  refine ⟨hs₂.wider (hs₂.closed.modify fun r hr => ⟨?_, hr.types⟩)
    (s₂.program.wider_modify copy _), s₂.program.wider_modify copy _, True.intro⟩
  refine List.forall_mem_append.2 ⟨(List.forall_mem_append.1 hr.symbols).1, ?_⟩
  simp only [List.map_append, List.forall_mem_append, List.forall_mem_map, Option.mem_toList]
  exact ⟨fun c hc => hw₂.allocated _ (hconstructors c hc), hprimary⟩

/-! ### The first pass -/

/-- **The first pass keeps the program closed,** and stops only to reject the tree. -/
theorem safe_copyDeclarations (hs : s.Intact job subst) (n : Node)
    (hn : ∀ m ∈ n :: n.descendants, m.KnownTo s.program) :
    job.Safe subst (job.copyDeclarations n) s fun _ _ => True := by
  induction n using Node.induction_children generalizing s with
  | step n ih =>
    have below : ∀ s', s'.Intact job subst → s.program.Wider s'.program →
        job.Safe subst (ForM.forM n.children job.copyDeclarations) s' fun _ _ => True := by
      intro s' hs' hw
      refine Safe.forM hs' fun c hc s₁ hs₁ hw₁ => ih c hc hs₁ fun m hm => ?_
      exact (hn m (.tail _ (Node.descendants_of_child hc hm))).wider (hw.trans hw₁)
    rw [copyDeclarations_eq]
    split
    · refine (safe_openClass hs ((hn _ (.head _)).mention (.head _))).bind
        fun opened s₁ hs₁ hw₁ _ => ?_
      refine (below s₁ hs₁ hw₁).bind fun _ s₂ hs₂ _ _ => ?_
      exact safe_closeClass hs₂ _ opened.1 opened.2
    · exact (safe_mintOwn hs (hn n (.head _))).bind fun _ s₁ hs₁ hw₁ _ => below s₁ hs₁ hw₁

end CopyJob

end Graft
