/-
# Links between symbols

Records of a table refer to each other both ways: a callable lists its parameters, and each
of these names its owner and its place in the list; a class lists its constructors, and each
of these names its class; a parameter that was derived names the declaration that it goes
back to, in one step (`SymbolTable.Linked`).

A table stays linked when a record is added that lists nothing (`SymbolTable.Linked.add`) and
when a record is completed with what refers back to it (`SymbolTable.Linked.modify`), and so
when a parameter or a constructor is declared (`SymbolTable.Linked.appendParam`,
`SymbolTable.Linked.addToClass`).
-/

import Graft.Proofs.Copy.Gains

namespace Graft

variable {k : Kind}

namespace SymbolTable

/-- The parameters belong to the callable, each under its place in the list. -/
def ListsOwn (table : SymbolTable) (owner : Callable) (params : List ParamId) : Prop :=
  ∀ i p, params[i]? = some p →
    ∃ r : ParamRecord, table.get? p = some r ∧ r.owner = owner ∧ r.index = i

/-- What the parameter was derived from was declared for itself. -/
def Derives (table : SymbolTable) (r : ParamRecord) : Prop :=
  ∀ o, r.derivedFrom = some o → ∃ r' : ParamRecord, table.get? o = some r' ∧ r'.derivedFrom = none

end SymbolTable

/-- What the record under a handle refers to refers back to it. -/
def Record.Linked (table : SymbolTable) : (k : Kind) → SymbolId k → Record k → Prop
  | .cls, id, (r : ClassRecord) =>
    (∀ c ∈ r.constructors, ∃ r' : ConstructorRecord, table.get? c = some r' ∧ r'.cls = id) ∧
      ∀ c, r.primary = some c → c ∈ r.constructors
  | .fn, id, (r : FunctionRecord) => table.ListsOwn (.fn id) r.params
  | .ctor, id, (r : ConstructorRecord) => table.ListsOwn (.ctor id) r.params
  | .param, _, (r : ParamRecord) => table.Derives r
  | .var, _, _ => True
  | .typeParam, _, _ => True

/-- The record lists no parameters and no constructors, and is derived from nothing but a
declaration. -/
def Record.Plain (table : SymbolTable) : (k : Kind) → Record k → Prop
  | .cls, (r : ClassRecord) => r.constructors = [] ∧ r.primary = none
  | .fn, (r : FunctionRecord) => r.params = []
  | .ctor, (r : ConstructorRecord) => r.params = []
  | .param, (r : ParamRecord) => table.Derives r
  | .var, _ => True
  | .typeParam, _ => True

namespace SymbolTable

/-- Every record of the table is linked. -/
def Linked (table : SymbolTable) : Prop :=
  ∀ (k : Kind) (id : SymbolId k) (r : Record k), table.get? id = some r → Record.Linked table k id r

/-! ### Deciding -/

instance (table : SymbolTable) (owner : Callable) (params : List ParamId) :
    Decidable (table.ListsOwn owner params) :=
  decidable_of_iff (∀ e ∈ params.zipIdx, ∃ r ∈ table.get? e.1, r.owner = owner ∧ r.index = e.2)
    ⟨fun h i p hp => h (p, i) (List.mk_mem_zipIdx_iff_getElem?.2 hp),
      fun h e he => h e.2 e.1 (List.mem_zipIdx_iff_getElem?.1 he)⟩

instance (table : SymbolTable) (r : ParamRecord) : Decidable (table.Derives r) :=
  inferInstanceAs (Decidable (∀ o ∈ r.derivedFrom, ∃ r' ∈ table.get? o, r'.derivedFrom = none))

instance (table : SymbolTable) : (k : Kind) → (id : SymbolId k) → (r : Record k) →
    Decidable (Record.Linked table k id r)
  | .cls, id, (r : ClassRecord) =>
    inferInstanceAs (Decidable ((∀ c ∈ r.constructors, ∃ r' ∈ table.get? c, r'.cls = id) ∧
      ∀ c ∈ r.primary, c ∈ r.constructors))
  | .fn, id, (r : FunctionRecord) => inferInstanceAs (Decidable (table.ListsOwn (.fn id) r.params))
  | .ctor, id, (r : ConstructorRecord) =>
    inferInstanceAs (Decidable (table.ListsOwn (.ctor id) r.params))
  | .param, _, (r : ParamRecord) => inferInstanceAs (Decidable (table.Derives r))
  | .var, _, _ => instDecidableTrue
  | .typeParam, _, _ => instDecidableTrue

instance (table : SymbolTable) : Decidable table.Linked :=
  decidable_of_iff (∀ k ∈ Kind.all, ∀ i < table.count k, ∀ r ∈ table.get? (⟨i⟩ : SymbolId k),
      Record.Linked table k ⟨i⟩ r)
    ⟨fun h k id r hr => h k k.mem_all id.index (allocated_iff.2 ⟨r, hr⟩) r hr,
      fun h k _ i _ r hr => h k ⟨i⟩ r hr⟩

/-! ### Later tables -/

variable {table later : SymbolTable}

/-- The later table has the parameters of the earlier one as they were, and its constructors
under their classes. -/
structure KeepsLinks (table later : SymbolTable) : Prop where
  params : ∀ (p : ParamId) (r : ParamRecord), table.get? p = some r → later.get? p = some r
  constructors : ∀ (c : ConstructorId) (r : ConstructorRecord), table.get? c = some r →
    ∃ r' : ConstructorRecord, later.get? c = some r' ∧ r'.cls = r.cls

/-- An extension keeps the links. -/
theorem Extends.keepsLinks (h : later.Extends table) : table.KeepsLinks later :=
  ⟨fun _ _ hr => h.get? hr, fun _ r hr => ⟨r, h.get? hr, rfl⟩⟩

/-- A list of parameters still is one as long as links are kept. -/
theorem ListsOwn.keeps {owner : Callable} {params : List ParamId}
    (h : table.ListsOwn owner params) (hk : table.KeepsLinks later) :
    later.ListsOwn owner params := by
  intro i p hp
  obtain ⟨r, hr, howns⟩ := h i p hp
  exact ⟨r, hk.params p r hr, howns⟩

/-- A parameter still derives from its root as long as links are kept. -/
theorem Derives.keeps {r : ParamRecord} (h : table.Derives r) (hk : table.KeepsLinks later) :
    later.Derives r := by
  intro o ho
  obtain ⟨r', hr', hroot⟩ := h o ho
  exact ⟨r', hk.params o r' hr', hroot⟩

/-- A record that is linked goes on to be. -/
theorem KeepsLinks.linked (h : table.KeepsLinks later) {id : SymbolId k} {r : Record k}
    (hr : Record.Linked table k id r) : Record.Linked later k id r := by
  cases k with
  | cls =>
    refine ⟨fun c hc => ?_, hr.2⟩
    obtain ⟨r', hr', hcls⟩ := hr.1 c hc
    obtain ⟨r'', hr'', hcls'⟩ := h.constructors c r' hr'
    exact ⟨r'', hr'', hcls'.trans hcls⟩
  | fn => exact ListsOwn.keeps hr h
  | ctor => exact ListsOwn.keeps hr h
  | param => exact Derives.keeps hr h
  | var => trivial
  | typeParam => trivial

/-! ### Adding and completing records -/

/-- A record without links has no wrong ones. -/
theorem linked_of_plain {r : Record k} (h : Record.Plain table k r) (id : SymbolId k) :
    Record.Linked table k id r := by
  cases k with
  | cls =>
    obtain ⟨hconstructors, hprimary⟩ := h
    refine ⟨fun c hc => ?_, fun c hc => ?_⟩
    · rw [hconstructors] at hc
      cases hc
    · rw [hprimary] at hc
      cases hc
  | fn | ctor =>
    intro i p hp
    rw [show r.params = [] from h] at hp
    cases hp
  | param => exact h
  | var => trivial
  | typeParam => trivial

/-- **A plain record may be added.** -/
theorem Linked.add (h : table.Linked) {r : Record k} (hr : Record.Plain table k r) :
    (table.add r).2.Linked := by
  have hkeeps : table.KeepsLinks (table.add r).2 := (table.add_extends r).keepsLinks
  intro k' id r' hr'
  by_cases hk : k' = k
  · subst hk
    rw [get?, arena_add_self, Array.getElem?_push] at hr'
    split at hr'
    · cases hr'
      exact hkeeps.linked (linked_of_plain hr id)
    · exact hkeeps.linked (h k' id r' hr')
  · rw [get?, arena_add_of_ne hk] at hr'
    exact hkeeps.linked (h k' id r' hr')

/-- **A record may be completed** if it is linked then, and others still find what they refer
to. -/
theorem Linked.modify (h : table.Linked) {id : SymbolId k} {f : Record k → Record k}
    (hkeeps : table.KeepsLinks (table.modify id f))
    (hf : ∀ r, table.get? id = some r → Record.Linked (table.modify id f) k id (f r)) :
    (table.modify id f).Linked := by
  intro k' id' r' hr'
  by_cases hid : id'.symbol = id.symbol
  · obtain rfl : k' = k := congrArg Symbol.kind hid
    obtain rfl := SymbolId.symbol_inj.1 hid
    rw [get?_modify_self] at hr'
    obtain ⟨r, hr, rfl⟩ := Option.map_eq_some_iff.1 hr'
    exact hf r hr
  · rw [get?_modify_of_ne table hid] at hr'
    exact hkeeps.linked (h k' id' r' hr')

/-- Completing a class changes no parameter and no constructor. -/
theorem keepsLinks_modify_class (id : ClassId) (f : ClassRecord → ClassRecord) :
    table.KeepsLinks (table.modify id f) :=
  ⟨fun _ _ hr => hr, fun _ r hr => ⟨r, hr, rfl⟩⟩

/-- A new parameter list keeps the links. -/
theorem keepsLinks_setParamList (params : List ParamId) (callable : Callable) :
    table.KeepsLinks (table.setParamList params callable) := by
  refine ⟨fun p r hr => (get?_setParamList params callable p).trans hr, fun c r hr => ?_⟩
  cases callable with
  | fn id => exact ⟨r, hr, rfl⟩
  | ctor id =>
    by_cases hc : c.symbol = id.symbol
    · obtain rfl := SymbolId.symbol_inj.1 hc
      refine ⟨{ r with params }, ?_, rfl⟩
      rw [setParamList, get?_modify_self, hr]
      rfl
    · exact ⟨r, (get?_modify_of_ne table hc _).trans hr, rfl⟩

/-- A callable may be given a list of its own parameters. -/
theorem Linked.setParamList (h : table.Linked) {callable : Callable} {params : List ParamId}
    (howns : table.ListsOwn callable params) : (table.setParamList params callable).Linked := by
  have hkeeps : table.KeepsLinks (table.setParamList params callable) :=
    keepsLinks_setParamList params callable
  cases callable with
  | fn id => exact h.modify hkeeps fun r hr => howns.keeps hkeeps
  | ctor id => exact h.modify hkeeps fun r hr => howns.keeps hkeeps

/-- A class may be given a list of its own constructors. -/
theorem Linked.setConstructors (h : table.Linked) {cls : ClassId}
    {constructors : ClassRecord → List ConstructorId}
    {primary : ClassRecord → Option ConstructorId}
    (howns : ∀ r : ClassRecord, table.get? cls = some r → ∀ c ∈ constructors r,
      ∃ r' : ConstructorRecord, table.get? c = some r' ∧ r'.cls = cls)
    (hprimary : ∀ r : ClassRecord, table.get? cls = some r → ∀ c, primary r = some c →
      c ∈ constructors r) :
    (table.modify cls fun (r : ClassRecord) =>
      { r with constructors := constructors r, primary := primary r }).Linked :=
  h.modify (keepsLinks_modify_class cls _) fun r hr => ⟨howns r hr, hprimary r hr⟩

/-! ### Declarations -/

/-- A callable that is allocated has a list of parameters. -/
theorem exists_paramList {callable : Callable} (h : table.Allocated callable.symbol) :
    ∃ params, table.paramList callable = .ok params := by
  cases callable with
  | fn id =>
    obtain ⟨r, hr⟩ := allocated_iff.1 h
    exact ⟨r.params, paramList_fn hr⟩
  | ctor id =>
    obtain ⟨r, hr⟩ := allocated_iff.1 h
    exact ⟨r.params, paramList_ctor hr⟩

/-- A callable lists parameters of its own. -/
theorem Linked.listsOwn (h : table.Linked) {callable : Callable} {params : List ParamId}
    (hparams : table.paramList callable = .ok params) : table.ListsOwn callable params := by
  have hthere := allocated_of_paramList hparams
  cases callable with
  | fn id =>
    obtain ⟨r, hr⟩ := allocated_iff.1 hthere
    rw [paramList_fn hr] at hparams
    cases hparams
    exact h .fn id r hr
  | ctor id =>
    obtain ⟨r, hr⟩ := allocated_iff.1 hthere
    rw [paramList_ctor hr] at hparams
    cases hparams
    exact h .ctor id r hr

/-- What a parameter goes back to was declared for itself, and is reached in one step. -/
theorem Linked.exists_root (h : table.Linked) {p : ParamId} {r : ParamRecord}
    (hr : table.get? p = some r) :
    ∃ r' : ParamRecord, table.get? (r.root p) = some r' ∧ r'.derivedFrom = none := by
  rw [ParamRecord.root]
  cases hfrom : r.derivedFrom with
  | none => exact ⟨r, hr, hfrom⟩
  | some o => exact h .param p r hr o hfrom

/-- A parameter with the next index may be listed at the end. -/
theorem ListsOwn.append {owner : Callable} {params : List ParamId}
    (h : table.ListsOwn owner params) {p : ParamId} {r : ParamRecord} (hr : table.get? p = some r)
    (howner : r.owner = owner) (hindex : r.index = params.length) :
    table.ListsOwn owner (params ++ [p]) := by
  intro i q hq
  rw [List.getElem?_append] at hq
  split at hq
  · exact h i q hq
  · obtain ⟨hi, rfl⟩ := List.getElem?_eq_some_iff.1 hq
    have hlast : i = params.length := by
      rw [List.length_singleton] at hi
      omega
    rw [List.getElem_singleton]
    exact ⟨r, hr, howner, hindex.trans hlast.symm⟩

/-- **A parameter that is declared** comes last in the list of its callable. -/
theorem Linked.appendParam (h : table.Linked) {owner : Callable}
    (howner : table.Allocated owner.symbol) (name : Name) (ty : TypeId) (traits : ParamTraits) :
    ∃ id later, table.appendParam owner name ty traits = .ok (id, later) ∧ later.Linked := by
  obtain ⟨params, hparams⟩ := exists_paramList howner
  let r : Record .param :=
    { owner, derivedFrom := none, index := params.length, name, ty, varargElement := none, traits }
  refine ⟨(table.add r).1, _, by rw [SymbolTable.appendParam, hparams]; rfl, ?_⟩
  have howns := (h.listsOwn hparams).keeps (table.add_extends r).keepsLinks
  exact (h.add (r := r) nofun).setParamList (howns.append (table.get?_add_self r) rfl rfl)

/-- **A constructor that is declared** is listed by its class. -/
theorem Linked.addToClass (h : table.Linked) {r : ConstructorRecord} (hr : r.params = [])
    (hcls : table.Allocated r.cls.symbol) :
    ∃ id later, SymbolTable.addToClass r table = .ok id later ∧ later.Linked := by
  obtain ⟨c, hc⟩ := allocated_iff.1 hcls
  have hold := (table.add_extends (k := .ctor) r).get? hc
  have hself := table.get?_add_self (k := .ctor) r
  refine ⟨(table.add (k := .ctor) r).1, _, by rw [SymbolTable.addToClass]; simp only [hold]; rfl,
    ?_⟩
  have hadded := h.add (k := .ctor) (r := r) hr
  refine hadded.setConstructors (fun c' hc' d hd => ?_) fun c' hc' d hd => ?_
  · rcases List.mem_append.1 hd with hd | hd
    · exact (hadded .cls _ c' hc').1 d hd
    · obtain rfl := List.mem_singleton.1 hd
      exact ⟨r, hself, rfl⟩
  · split at hd
    · cases hd
      exact List.mem_append_right _ (.head _)
    · exact List.mem_append_left _ ((hadded .cls _ c' hc').2 d hd)

end SymbolTable

end Graft
