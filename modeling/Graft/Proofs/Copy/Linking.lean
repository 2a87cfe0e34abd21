/-
# A copy keeps the table linked

Copies are put together in stages: parameters are added for a callable that does not list
them yet, and a class lists its constructors when its members are done.  At all times in
between the table is linked, and the copy of a constructor constructs the copy of the class
(`CopyState.Linked`).  So the table that a copy of a closed tree leaves behind is linked,
whether the copy succeeds or stops half way (`Copier.leaves_linked`).  That holds again when
the copy is copied, since the table does not say which of its symbols are copies.
-/

import Graft.Proofs.Copy.Naming
import Graft.Proofs.Copy.Transcript
import Graft.Proofs.Symbol.Links

namespace Graft

variable {σ α β : Type} {k : Kind}

namespace SymbolTable

/-- The class that a constructor constructs. -/
def classOf? (table : SymbolTable) : Symbol → Option ClassId
  | ⟨.ctor, i⟩ => (table.get? (⟨i⟩ : ConstructorId)).map (·.cls)
  | _ => none

variable {table later : SymbolTable}

/-- A constructor keeps its class. -/
theorem KeepsLinks.classOf? (h : table.KeepsLinks later) {a : Symbol} {cls : ClassId}
    (ha : table.classOf? a = some cls) : later.classOf? a = some cls := by
  obtain ⟨k, i⟩ := a
  cases k with
  | ctor =>
    obtain ⟨r, hr, rfl⟩ := Option.map_eq_some_iff.1 ha
    obtain ⟨r', hr', hcls⟩ := h.constructors _ r hr
    exact Option.map_eq_some_iff.2 ⟨r', hr', hcls⟩
  | cls | fn | var | param | typeParam => cases ha

end SymbolTable

/-- What holds at all times of a copy in a linked table. -/
structure CopyState.Linked (s : CopyState σ) (base : SymbolTable) : Prop where
  /-- What was there is as it was. -/
  extends_ : s.program.symbols.Extends base
  linked : s.program.symbols.Linked
  /-- The copy of a constructor constructs the copy of its class. -/
  classes : ∀ a c, s.map.copyOf? a = some c → ∀ cls, base.classOf? a = some cls →
    ∃ cls' : ClassId, s.program.symbols.classOf? c = some cls' ∧
      s.map.copyOf? cls.symbol = some cls'.symbol

/-- From one state to the next records and copies were added, and all that was there stayed. -/
structure CopyState.Adds (s s' : CopyState σ) : Prop where
  symbols : s'.program.symbols.Extends s.program.symbols
  map : ∀ a c, s.map.copyOf? a = some c → s'.map.copyOf? a = some c

namespace CopyState

variable {s s₁ s₂ : CopyState σ} {base : SymbolTable} {scheme : NameScheme} {log : List Draw}

/-- Nothing is added at first. -/
theorem Adds.refl (s : CopyState σ) : s.Adds s := ⟨.refl _, fun _ _ h => h⟩

/-- Additions one after another. -/
theorem Adds.trans (h : s.Adds s₁) (h' : s₁.Adds s₂) : s.Adds s₂ :=
  ⟨h.symbols.trans h'.symbols, fun a c hc => h'.map a c (h.map a c hc)⟩

/-- To draw names adds to the state. -/
theorem Drew.adds (h : s.Drew scheme log s₁) : s.Adds s₁ :=
  ⟨h.symbols ▸ .refl _, fun _ _ hc => h.map ▸ hc⟩

/-- Types and names are no concern. -/
theorem Linked.of_drew (h : s.Linked base) (hd : s.Drew scheme log s₁) : s₁.Linked base := by
  obtain ⟨h₁, h₂, h₃⟩ := h
  refine ⟨?_, ?_, ?_⟩ <;> simp only [hd.symbols, hd.map] <;> assumption

/-- The records may change while the map stays. -/
theorem Linked.withSymbols (h : s.Linked base) {symbols : SymbolTable}
    (hext : symbols.Extends base) (hlinked : symbols.Linked)
    (hkeeps : s.program.symbols.KeepsLinks symbols) : (s.withSymbols symbols).Linked base where
  extends_ := hext
  linked := hlinked
  classes a c hc cls hcls := by
    obtain ⟨cls', hcls', hcopy⟩ := h.classes a c hc cls hcls
    exact ⟨cls', hkeeps.classOf? hcls', hcopy⟩

end CopyState

namespace CopyJob

open CopyM CopyState

variable {s s₁ : CopyState σ} {base : SymbolTable}

/-! ### Single actions -/

/-- A plain record is added. -/
theorem mint_linked (hs : s.Linked base) {r : Record k}
    (hr : Record.Plain s.program.symbols k r) :
    Ends (mint r) s
      (fun copy s' => s'.Linked base ∧ s.Adds s' ∧ ¬ base.Allocated copy.symbol ∧
        s'.program.symbols.get? copy = some r)
      (fun _ _ => False) := by
  have hext := s.program.symbols.add_extends r
  have hnew : ¬ s.program.symbols.Allocated (s.program.symbols.add r).1.symbol := Nat.lt_irrefl _
  exact ⟨hs.withSymbols (hs.extends_.trans hext) (hs.linked.add hr) hext.keepsLinks,
    ⟨hext, fun _ _ h => h⟩, mt hs.extends_.allocated hnew, s.program.symbols.get?_add_self r⟩

/-- The copy of a constructor is recorded if it constructs the copy of the class. -/
theorem register_linked (hs : s.Linked base) [k.Copied] {id copy : SymbolId k}
    (hclass : ∀ cls, base.classOf? id.symbol = some cls → ∃ cls' : ClassId,
      s.program.symbols.classOf? copy.symbol = some cls' ∧
        s.map.copyOf? cls.symbol = some cls'.symbol) :
    Ends (register id copy) s
      (fun _ s' => s'.Linked base ∧ s.Adds s' ∧ s'.program = s.program ∧
        s'.map.copyOf? id.symbol = some copy.symbol)
      (fun _ s' => s'.Linked base) := by
  unfold Ends CopyM.register
  cases hi : s.map.insert id copy with
  | error e => exact hs
  | ok map =>
    have hmap := CopyMap.copyOf?_insert hi
    have hkept : ∀ a c, s.map.copyOf? a = some c → map.copyOf? a = some c := by
      intro a c hc
      rw [hmap, if_neg]
      · exact hc
      · rintro rfl
        rw [CopyMap.copyOf?_of_insert hi] at hc
        cases hc
    refine ⟨⟨hs.extends_, hs.linked, fun a c hc cls hcls => ?_⟩, ⟨.refl _, hkept⟩, rfl, ?_⟩
    · obtain ⟨cls', hcls', hcopy⟩ : ∃ cls' : ClassId,
          s.program.symbols.classOf? c = some cls' ∧
            s.map.copyOf? cls.symbol = some cls'.symbol := by
        change map.copyOf? a = some c at hc
        rw [hmap] at hc
        split at hc
        · rename_i ha
          cases hc
          exact hclass cls (ha ▸ hcls)
        · exact hs.classes a c hc cls hcls
      exact ⟨cls', hcls', hkept _ _ hcopy⟩
    · show map.copyOf? id.symbol = some copy.symbol
      rw [hmap, if_pos rfl]

variable (job : CopyJob σ)

/-- Parameters are added for their owner, each with the index that it is found at. -/
theorem mintParams_linked (hs : s.Linked base) {params : List ParamId} {callable : Callable}
    (hparams : base.ListsOwn callable params) (owner : Callable) :
    Ends (job.mintParams params owner) s
      (fun copies s' => s'.Linked base ∧ s.Adds s' ∧ s'.program.symbols.ListsOwn owner copies)
      (fun _ s' => s'.Linked base) := by
  suffices h : Ends (job.mintParams params owner) s
      (fun copies s' => s'.Linked base ∧ s.Adds s' ∧ s'.program.symbols.ListsOwn owner copies ∧
        copies.length = params.length)
      (fun _ s' => s'.Linked base) from
    h.imp (fun _ _ ⟨h₁, h₂, h₃, _⟩ => ⟨h₁, h₂, h₃⟩) fun _ _ h => h
  refine Ends.mapM (I := fun done copies s' => s'.Linked base ∧ s.Adds s' ∧
    s'.program.symbols.ListsOwn owner copies ∧ copies.length = done.length) params
    ⟨hs, .refl s, nofun, rfl⟩ ?_
  rintro done p rest hsplit copies s₁ ⟨hs₁, hadds, howns, hlength⟩
  obtain ⟨r, hr, -, hindex⟩ := hparams done.length p (by simp [hsplit])
  refine Ends.bind (Ends.of_eq_ok (record_of_some (hs₁.extends_.get? hr)) ?_)
  have hidle : ∀ t, Idle job.scheme (job.substitute t) := idle_substitute job
  refine Ends.bind ((hidle r.ty s₁).imp (fun ty s₂ h₂ => ?_) fun _ _ h => hs₁.of_drew h)
  refine Ends.bind ((Idle.option_mapM hidle r.varargElement s₂).imp
    (fun varargElement s₃ h₃ => ?_) fun _ _ h => hs₁.of_drew (h₂.idle h))
  have h₁₃ := h₂.idle h₃
  have hs₃ := hs₁.of_drew h₁₃
  have hroot : s₃.program.symbols.Derives
      { r with owner, derivedFrom := some (r.root p), ty, varargElement } := by
    rintro o ⟨⟩
    exact hs₃.linked.exists_root (hs₃.extends_.get? hr)
  refine Ends.bind ((mint_linked hs₃ (k := .param) hroot).imp ?_ fun _ _ h => h.elim)
  rintro copy s₄ ⟨hs₄, hadds₄, -, hcopy⟩
  refine Ends.bind ((register_linked hs₄ fun _ h => by cases h).imp ?_ fun _ _ h => h)
  rintro - s₅ ⟨hs₅, hadds₅, -⟩
  have hadds₁₅ := (h₁₃.adds.trans hadds₄).trans hadds₅
  refine ⟨hs₅, hadds.trans hadds₁₅, ?_, by simp [hlength]⟩
  refine (howns.keeps hadds₁₅.symbols.keepsLinks).append (hadds₅.symbols.get? hcopy) rfl ?_
  exact hindex.trans hlength.symm

/-! ### Declarations -/

/-- A callable is added without parameters, and completed when these are there. -/
theorem declare_linked (hs : s.Linked base) [k.Copied] (id : SymbolId k) {r : Record k}
    (hr : Record.Plain s.program.symbols k r) (callable : SymbolId k → Callable)
    (hcallable : ∀ copy, (callable copy).symbol = copy.symbol) {params : List ParamId}
    {original : Callable} (hparams : base.ListsOwn original params)
    (hclass : ∀ cls, base.classOf? id.symbol = some cls → ∃ cls' : ClassId,
      s.map.copyOf? cls.symbol = some cls'.symbol ∧
        ∀ (table : SymbolTable) (copy : SymbolId k), table.get? copy = some r →
          table.classOf? copy.symbol = some cls') :
    Ends
      (do
        let copy ← mint r
        setParamList (callable copy) (← job.mintParams params (callable copy))
        register id copy) s
      (fun _ s' => s'.Linked base) (fun _ s' => s'.Linked base) := by
  refine Ends.bind ((mint_linked hs hr).imp ?_ fun _ _ h => h.elim)
  rintro copy s₁ ⟨hs₁, hadds₁, hnew, hcopy⟩
  refine Ends.bind ((job.mintParams_linked hs₁ hparams (callable copy)).imp ?_ fun _ _ h => h)
  rintro copies s₂ ⟨hs₂, hadds₂, howns⟩
  have hkeeps : s₂.program.symbols.KeepsLinks
      (s₂.program.symbols.setParamList copies (callable copy)) :=
    SymbolTable.keepsLinks_setParamList copies (callable copy)
  have hs₃ := hs₂.withSymbols (hs₂.extends_.setParamList ((hcallable copy).symm ▸ hnew) copies)
    (hs₂.linked.setParamList howns) hkeeps
  refine Ends.bind (show Ends (setParamList _ copies) s₂ _ _ from ?_)
  refine (register_linked hs₃ fun cls hcls => ?_).imp (fun _ _ h => h.1) fun _ _ h => h
  obtain ⟨cls', hmapped, hcls'⟩ := hclass cls hcls
  exact ⟨cls', hkeeps.classOf? (hadds₂.symbols.keepsLinks.classOf? (hcls' _ _ hcopy)),
    hadds₂.map _ _ (hadds₁.map _ _ hmapped)⟩

variable (hbase : base.Linked)

include hbase

/-- The copy of a function keeps the table linked, whether it succeeds or fails. -/
theorem mintFunction_linked (hs : s.Linked base) {function : FunctionId}
    (hf : base.Allocated function.symbol) :
    Ends (job.mintFunction function) s (fun _ s' => s'.Linked base)
      (fun _ s' => s'.Linked base) := by
  obtain ⟨r, hr⟩ := SymbolTable.allocated_iff.1 hf
  have hidle : ∀ t, Idle job.scheme (job.substitute t) := idle_substitute job
  refine Ends.bind (Ends.of_eq_ok (record_of_some (hs.extends_.get? hr)) ?_)
  dsimp only
  split
  · exact hs
  · refine Ends.bind ((job.freshName_drew r.name s).imp (fun name s₁ h₁ => ?_)
      fun _ _ h => hs.of_drew h)
    have hs₁ := hs.of_drew h₁
    refine Ends.bind ((hidle r.returnType s₁).imp (fun returnType s₂ h₂ => ?_)
      fun _ _ h => hs₁.of_drew h)
    refine Ends.bind ((Idle.option_mapM hidle r.extensionReceiver s₂).imp
      (fun extensionReceiver s₃ h₃ => ?_) fun _ _ h => hs₁.of_drew (h₂.idle h))
    refine job.declare_linked (hs₁.of_drew (h₂.idle h₃)) function ?_ .fn (fun _ => rfl)
      (hbase .fn function r hr) fun _ h => by cases h
    exact rfl

/-- The copy of an operator keeps the table linked, whether it succeeds or fails. -/
theorem mintInvoke_linked (hs : s.Linked base) {invoke : FunctionId}
    (hi : base.Allocated invoke.symbol) :
    Ends (job.mintInvoke invoke) s (fun _ s' => s'.Linked base)
      (fun _ s' => s'.Linked base) := by
  obtain ⟨r, hr⟩ := SymbolTable.allocated_iff.1 hi
  have hidle : ∀ t, Idle job.scheme (job.substitute t) := idle_substitute job
  refine Ends.bind (Ends.of_eq_ok (record_of_some (hs.extends_.get? hr)) ?_)
  refine Ends.bind ((hidle r.returnType s).imp (fun returnType s₁ h₁ => ?_)
    fun _ _ h => hs.of_drew h)
  refine job.declare_linked (hs.of_drew h₁) invoke ?_ .fn (fun _ => rfl)
    (hbase .fn invoke r hr) fun _ h => by cases h
  exact rfl

/-- The copy of a constructor keeps the table linked, whether it succeeds or fails. -/
theorem mintConstructor_linked (hs : s.Linked base) {constructor : ConstructorId}
    (hc : base.Allocated constructor.symbol) :
    Ends (job.mintConstructor constructor) s (fun _ s' => s'.Linked base)
      (fun _ s' => s'.Linked base) := by
  obtain ⟨r, hr⟩ := SymbolTable.allocated_iff.1 hc
  have hidle : ∀ t, Idle job.scheme (job.substitute t) := idle_substitute job
  refine Ends.bind (Ends.of_eq_ok (record_of_some (hs.extends_.get? hr)) ?_)
  refine Ends.bind (Ends.of_eq_ok (show copies s = .ok s.map s from rfl) ?_)
  dsimp only
  split
  · rename_i cls hcls
    split
    · exact hs
    · refine Ends.bind ((hidle r.returnType s).imp (fun returnType s₁ h₁ => ?_)
        fun _ _ h => hs.of_drew h)
      refine Ends.bind ((Idle.option_mapM hidle r.dispatchReceiver s₁).imp
        (fun dispatchReceiver s₂ h₂ => ?_) fun _ _ h => hs.of_drew (h₁.idle h))
      have h₁₂ := h₁.idle h₂
      refine job.declare_linked (hs.of_drew h₁₂) constructor ?_ .ctor (fun _ => rfl)
        (hbase .ctor constructor r hr) fun original horiginal => ?_
      · exact rfl
      -- the class that the copy constructs is the one that was recorded
      have hrcls : r.cls = original := by
        obtain ⟨r', hr', rfl⟩ := Option.map_eq_some_iff.1 horiginal
        rw [Option.some.inj (hr.symm.trans hr')]
      refine ⟨cls, h₁₂.adds.map _ _ ?_, fun table copy hcopy => ?_⟩
      · exact hrcls ▸ CopyMap.copyOf?_of_get? hcls
      · exact Option.map_eq_some_iff.2 ⟨_, hcopy, rfl⟩
  · exact hs

omit hbase in
/-- The copy of a variable keeps the table linked, whether it succeeds or fails. -/
theorem mintVariable_linked (hs : s.Linked base) {variableId : VariableId}
    (hv : base.Allocated variableId.symbol) :
    Ends (job.mintVariable variableId) s (fun _ s' => s'.Linked base)
      (fun _ s' => s'.Linked base) := by
  obtain ⟨r, hr⟩ := SymbolTable.allocated_iff.1 hv
  refine Ends.bind (Ends.of_eq_ok (record_of_some (hs.extends_.get? hr)) ?_)
  refine Ends.bind ((job.freshName_drew r.name s).imp (fun name s₁ h₁ => ?_)
    fun _ _ h => hs.of_drew h)
  have hs₁ := hs.of_drew h₁
  have hidle : Idle job.scheme (job.substitute r.ty) := idle_substitute job r.ty
  refine Ends.bind ((hidle s₁).imp (fun ty s₂ h₂ => ?_) fun _ _ h => hs₁.of_drew h)
  refine Ends.bind ((mint_linked (hs₁.of_drew h₂) ?_).imp ?_ fun _ _ h => h.elim)
  · trivial
  · rintro copy s₃ ⟨hs₃, -⟩
    exact (register_linked hs₃ fun _ h => by cases h).imp (fun _ _ h => h.1) fun _ _ h => h

/-- What a node declares is copied into a table that stays linked. -/
theorem mintOwn_linked (hs : s.Linked base) {n : Node}
    (hn : ∀ a ∈ n.mentions, base.Allocated a) :
    Ends (job.mintOwn n) s (fun _ s' => s'.Linked base) (fun _ s' => s'.Linked base) := by
  unfold mintOwn
  split
  · exact job.mintFunction_linked hbase hs (hn _ (.head _))
  · exact job.mintConstructor_linked hbase hs (hn _ (.head _))
  · exact job.mintVariable_linked hs (hn _ (.head _))
  · have hcallee := hn _ (.head _)
    obtain ⟨r, hr⟩ := SymbolTable.allocated_iff.1 hcallee
    refine Ends.bind (Ends.of_eq_ok (record_of_some (hs.extends_.get? hr)) ?_)
    refine Ends.bind (Ends.of_eq_ok (show copies s = .ok s.map s from rfl) ?_)
    split
    · exact job.mintInvoke_linked hbase hs hcallee
    · exact hs
  · exact hs

/-! ### Classes -/

omit hbase in
/-- A class is opened without constructors. -/
theorem openClass_linked (hs : s.Linked base) {cls : ClassId} {r : ClassRecord}
    (hr : base.get? cls = some r) :
    Ends (job.openClass cls) s
      (fun opened s' => s'.Linked base ∧ opened.1 = r ∧ ¬ base.Allocated opened.2.symbol ∧
        s'.map.copyOf? cls.symbol = some opened.2.symbol)
      (fun _ s' => s'.Linked base) := by
  have hidle : Idle job.scheme (job.copySupertypes r) := job.idle_copySupertypes r
  rw [openClass_eq]
  refine Ends.bind (Ends.of_eq_ok (record_of_some (hs.extends_.get? hr)) ?_)
  refine Ends.bind ((hidle s).imp (fun supertypes s₁ h₁ => ?_) fun _ _ h => hs.of_drew h)
  refine Ends.bind ((job.freshName_drew r.name s₁).imp (fun name s₂ h₂ => ?_)
    fun _ _ h => (hs.of_drew h₁).of_drew h)
  refine Ends.bind ((mint_linked ((hs.of_drew h₁).of_drew h₂) ?_).imp ?_ fun _ _ h => h.elim)
  · exact ⟨rfl, rfl⟩
  · rintro copy s₃ ⟨hs₃, -, hnew, -⟩
    refine Ends.bind ((register_linked hs₃ fun _ h => by cases h).imp ?_ fun _ _ h => h)
    rintro - s₄ ⟨hs₄, -, -, hcopy⟩
    exact ⟨hs₄, rfl, hnew, hcopy⟩

omit hbase in
/-- Where a class is not closed, nothing has happened. -/
theorem closeClass_stops (cls : ClassId) (r : ClassRecord) (copy : ClassId) (s : CopyState σ) :
    Ends (closeClass cls r copy) s (fun _ _ => True) (fun _ s' => s.Drew job.scheme [] s') := by
  refine Ends.bind ((Idle.mapM (idle_copiedConstructor cls) r.constructors s).imp
    (fun constructors s₁ h₁ => ?_) fun _ _ h => h)
  exact Ends.bind ((Idle.option_mapM (idle_copiedConstructor cls) r.primary s₁).imp
    (fun _ _ _ => True.intro) fun _ _ h => h₁.idle h)

include job in
/-- A class is closed with the copies of its constructors, which construct its copy. -/
theorem closeClass_linked (hs : s.Linked base) {cls : ClassId} {r : ClassRecord}
    (hr : base.get? cls = some r) {copy : ClassId} (hnew : ¬ base.Allocated copy.symbol)
    (hcopy : s.map.copyOf? cls.symbol = some copy.symbol) :
    Ends (closeClass cls r copy) s (fun _ s' => s'.Linked base) (fun _ s' => s'.Linked base) := by
  refine ((closeClass_ends cls r copy s).and (job.closeClass_stops cls r copy s)).imp ?_
    fun _ _ ⟨_, h⟩ => hs.of_drew h
  rintro - s' ⟨⟨hkeys, rfl⟩, -⟩
  obtain ⟨howns, hprimary⟩ : Record.Linked base .cls cls r := hbase .cls cls r hr
  refine hs.withSymbols (hs.extends_.modify hnew _) (hs.linked.setConstructors ?_ ?_)
    (SymbolTable.keepsLinks_modify_class copy _)
  · rintro - - c hc
    obtain ⟨original, horiginal, rfl⟩ := List.mem_map.1 hc
    obtain ⟨r', hr', hcls⟩ := howns original horiginal
    -- the class of the copy is the copy of the class, and that is the one being closed
    obtain ⟨cls', hcls', hmapped⟩ := hs.classes _ _
      (CopyMap.copyOf?_of_mem_keys (hkeys original (List.mem_append_left _ horiginal))) cls
      (Option.map_eq_some_iff.2 ⟨r', hr', hcls⟩)
    obtain rfl : copy = cls' := SymbolId.symbol_inj.1 (Option.some.inj (hcopy.symm.trans hmapped))
    exact Option.map_eq_some_iff.1 hcls'
  · rintro - - c hc
    obtain ⟨original, horiginal, rfl⟩ := Option.map_eq_some_iff.1 hc
    exact List.mem_map_of_mem (hprimary original horiginal)

/-- **Copying declarations keeps the table linked.** -/
theorem copyDeclarations_linked (n : Node)
    (hn : ∀ m ∈ n :: n.descendants, ∀ a ∈ m.mentions, base.Allocated a) (hs : s.Linked base) :
    Ends (job.copyDeclarations n) s (fun _ s' => s'.Linked base)
      (fun _ s' => s'.Linked base) := by
  induction n using Node.induction_children generalizing s with
  | step n ih =>
    have below : ∀ s : CopyState σ, s.Linked base →
        Ends (ForM.forM n.children job.copyDeclarations) s (fun _ s' => s'.Linked base)
          (fun _ s' => s'.Linked base) := by
      intro s hs
      refine Ends.forM (I := fun _ (s' : CopyState σ) => s'.Linked base) _ hs ?_
      intro done c rest hsplit s₁ hs₁
      have hc : c ∈ n.children := hsplit ▸ List.mem_append_right _ (.head _)
      exact ih c hc (fun m hm => hn m (.tail _ (Node.descendants_of_child hc hm))) hs₁
    have hsteps : job.Chains (ForM.forM n.children job.copyDeclarations) [] fun _ => [] :=
      Chains.forM fun c _ => job.chains_copyDeclarations c
    have hown := hn n (.head _)
    rw [copyDeclarations_eq]
    split
    · rename_i cls members
      obtain ⟨r, hr⟩ := SymbolTable.allocated_iff.1 (hown _ (.head _))
      refine Ends.bind ((job.openClass_linked hs hr).imp ?_ fun _ _ h => h)
      rintro ⟨r', copy⟩ s₁ ⟨hs₁, rfl, hnew, hcopy⟩
      refine Ends.bind (((below s₁ hs₁).and (hsteps s₁)).imp ?_ fun _ _ h => h.1)
      rintro _ s₂ ⟨hs₂, hsteps₂⟩
      exact job.closeClass_linked hbase hs₂ hr hnew (Steps.copyOf? hsteps₂ hcopy)
    · exact Ends.bind ((job.mintOwn_linked hbase hs hown).imp (fun _ s₁ hs₁ => below s₁ hs₁)
        fun _ _ h => h)

end CopyJob

namespace Copier

open CopyM CopyJob CopyState

variable (copier : Copier σ) {program : Program}

/-- Both passes keep the table linked, whether they succeed or fail. -/
theorem passes_linked (job : CopyJob σ) {root : Node} {s : CopyState σ} {base : SymbolTable}
    (hbase : base.Linked) (hroot : ∀ n ∈ root.descendants, ∀ a ∈ n.mentions, base.Allocated a)
    (hs : s.Linked base) :
    Ends (copier.passes job root) s (fun _ s' => s'.Linked base)
      (fun _ s' => s'.Linked base) := by
  have hfirst : Ends (ForM.forM root.children job.copyDeclarations) s
      (fun _ s' => s'.Linked base) (fun _ s' => s'.Linked base) := by
    refine Ends.forM (I := fun _ (s' : CopyState σ) => s'.Linked base) _ hs ?_
    intro done c rest hsplit s₁ hs₁
    have hc : c ∈ root.children := hsplit ▸ List.mem_append_right _ (.head _)
    exact job.copyDeclarations_linked hbase c
      (fun m hm => hroot m (Node.descendants_of_child hc hm)) hs₁
  refine Ends.bind (hfirst.imp (fun _ s₁ hs₁ => ?_) fun _ _ h => h)
  exact (copier.idle_secondPass job.scheme job root s₁).imp
    (fun _ _ h => hs₁.of_drew h) fun _ _ h => hs₁.of_drew h

/-- **A copy of a closed tree leaves a linked table,** whether it succeeds or stops. -/
theorem leaves_linked (hlinked : program.symbols.Linked) {root : Node}
    (hroot : root.ClosedIn program) (inlined : String) (memory : σ) :
    (copier.leaves root inlined program memory).symbols.Linked := by
  have hs : CopyState.Linked ({ program, memory } : CopyState σ) program.symbols :=
    ⟨.refl _, hlinked, fun a c hc => absurd hc CopyMap.copyOf?_empty_ne⟩
  have hmentions : ∀ n ∈ root.descendants, ∀ a ∈ n.mentions, program.symbols.Allocated a :=
    fun n hn a ha => (hroot.below hn).mention ha
  have hends : Ends (copier.actions root inlined) { program, memory }
      (fun _ s' => s'.Linked program.symbols) (fun _ s' => s'.Linked program.symbols) :=
    copier.actions_ends (fun _ => copier.passes_linked _ hlinked hmentions hs) fun _ => hs
  obtain ⟨s, hlinked', hleaves⟩ := copier.leaves_of_ends hends
  exact hleaves ▸ hlinked'.linked

end Copier

/-- **The links of a table are preserved** when a parameter is declared for a callable that is
there, when a constructor is declared for a class that is there, when a record is added that
lists nothing and is derived from nothing but a declaration, and when a tree that is closed in
the program is copied, in whatever way and however this ends. -/
theorem SymbolTable.links_preserved {table : SymbolTable} (h : table.Linked) :
    (∀ (owner : Callable) (name : Name) (ty : TypeId) (traits : ParamTraits),
      table.Allocated owner.symbol → ∃ id later,
        table.appendParam owner name ty traits = .ok (id, later) ∧ later.Linked) ∧
    (∀ r : ConstructorRecord, r.params = [] → table.Allocated r.cls.symbol → ∃ id later,
      addToClass r table = .ok id later ∧ later.Linked) ∧
    (∀ (k : Kind) (r : Record k), Record.Plain table k r → (table.add r).2.Linked) ∧
    ∀ (σ : Type) (copier : Copier σ) (root : Node) (inlined : String) (program : Program)
      (memory : σ), program.symbols = table → root.ClosedIn program →
        (copier.leaves root inlined program memory).symbols.Linked := by
  refine ⟨fun owner name ty traits howner => h.appendParam howner name ty traits,
    fun r hr hcls => h.addToClass hr hcls, fun k r hr => h.add hr, ?_⟩
  rintro σ copier root inlined program memory rfl hroot
  exact copier.leaves_linked h hroot inlined memory

/-- The sample tree is copied, and a parameter is declared for the function `inner`. -/
theorem SymbolTable.links_preserved_sample :
    ((Copier.ofParams ⟨0⟩ (some sampleSubst) {}).leaves sampleTree "block" sampleProgram
        ()).symbols.Linked ∧
      ∃ id later, sampleProgram.symbols.appendParam (.fn ⟨1⟩) ⟨5⟩ ⟨9⟩ {} = .ok (id, later) ∧
        later.Linked := by
  have hlinked : sampleProgram.symbols.Linked := by decide +kernel
  obtain ⟨hparam, -, -, hcopy⟩ := links_preserved hlinked
  exact ⟨hcopy Unit _ sampleTree "block" sampleProgram () rfl (by decide +kernel),
    hparam _ _ _ _ (by decide +kernel)⟩

/-! ### Programs that are built up -/

namespace Program

/-- A program whose symbols were declared one after the other, or added by copies, while types
and names were added in any way. -/
inductive Built : Program → Prop
  | start (pool : TypePool) (supply : NameSupply) : Built { pool, supply }
  | withOthers {program : Program} (h : Built program) (pool : TypePool) (supply : NameSupply) :
      Built { program with pool, supply }
  | add {program : Program} (h : Built program) {k : Kind} {r : Record k}
      (hr : Record.Plain program.symbols k r) :
      Built { program with symbols := (program.symbols.add r).2 }
  | param {program : Program} (h : Built program) {owner : Callable} {name : Name} {ty : TypeId}
      {traits : ParamTraits} {id : ParamId} {later : SymbolTable}
      (howner : program.symbols.Allocated owner.symbol)
      (happend : program.symbols.appendParam owner name ty traits = .ok (id, later)) :
      Built { program with symbols := later }
  | constructor {program : Program} (h : Built program) {r : ConstructorRecord}
      (hr : r.params = []) {id : ConstructorId} {later : SymbolTable}
      (hcls : program.symbols.Allocated r.cls.symbol)
      (hadd : SymbolTable.addToClass r program.symbols = .ok id later) :
      Built { program with symbols := later }
  | copy {program : Program} (h : Built program) {σ : Type} (copier : Copier σ) {root : Node}
      (hroot : root.ClosedIn program) (inlined : String) (memory : σ) :
      Built (copier.leaves root inlined program memory)

/-- **The table of a program that was built up is linked,** however many copies were copied
again on the way. -/
theorem Built.linked {program : Program} (h : program.Built) : program.symbols.Linked := by
  induction h with
  | start pool supply =>
    intro k id r hr
    cases k <;> cases hr
  | withOthers _ pool supply ih => exact ih
  | add _ hr ih => exact ih.add hr
  | param _ howner happend ih =>
    obtain ⟨_, _, happend', hlinked⟩ := ih.appendParam howner _ _ _
    obtain ⟨-, rfl⟩ := Prod.mk.inj (Except.ok.inj (happend.symm.trans happend'))
    exact hlinked
  | constructor _ hr hcls hadd ih =>
    obtain ⟨_, _, hadd', hlinked⟩ := ih.addToClass hr hcls
    obtain ⟨-, rfl⟩ := EStateM.Result.ok.inj (hadd.symm.trans hadd')
    exact hlinked
  | copy _ copier hroot inlined memory ih => exact copier.leaves_linked ih hroot inlined memory

end Program

end Graft
