/-
# The names of copies

A copy draws names for the classes, variables and declared functions that it adds, and for
nothing else.  `CopyState.Named` says which names were drawn between two states, and that
each of them was given to one added record at most; it also says after which record the
copies were named.  Every action of a copy leads from one such state to another, however it
ends (`Copier.actions_named`).
-/

import Graft.Proofs.Copy.Run
import Graft.Proofs.Name.Numbering

namespace Graft

variable {σ α β : Type} {k : Kind}

/-! ### Names of records -/

/-- The name that the copy of a record is named after, if it is given a name of its own. -/
def Record.baseName? : (k : Kind) → Record k → Option Name
  | .cls, r => some r.name
  | .fn, r => some r.name
  | .var, r => some r.name
  | .ctor, _ => none
  | .param, _ => none
  | .typeParam, _ => none

/-- The name of a record, if it is of a sort that gets a new name when it is copied: it is a
class, a variable or a function other than an `invoke` operator. -/
def Record.mintedName? : (k : Kind) → Record k → Option Name
  | .fn, r => if r.isTypeInvoke then none else some r.name
  | k, r => Record.baseName? k r

namespace SymbolTable

/-- The name of a symbol that its copy's name can be made from. -/
def baseName? (table : SymbolTable) (a : Symbol) : Option Name :=
  (table.get? (⟨a.index⟩ : SymbolId a.kind)).bind (Record.baseName? a.kind)

/-- The name of a symbol, if it is of a sort that gets a new name when it is copied. -/
def mintedName? (table : SymbolTable) (a : Symbol) : Option Name :=
  (table.get? (⟨a.index⟩ : SymbolId a.kind)).bind (Record.mintedName? a.kind)

variable {table : SymbolTable}

/-- The name of a handle's symbol is read off its record. -/
theorem baseName?_symbol (id : SymbolId k) :
    table.baseName? id.symbol = (table.get? id).bind (Record.baseName? k) := rfl

/-- The name a handle's symbol was made with is read off its record. -/
theorem mintedName?_symbol (id : SymbolId k) :
    table.mintedName? id.symbol = (table.get? id).bind (Record.mintedName? k) := rfl

/-- A symbol that has a name is in the table. -/
theorem allocated_of_baseName? {a : Symbol} {n : Name} (h : table.baseName? a = some n) :
    table.Allocated a := by
  obtain ⟨k, i⟩ := a
  obtain ⟨r, hr, -⟩ := Option.bind_eq_some_iff.1 h
  have hid : table.Allocated (⟨i⟩ : SymbolId k).symbol := allocated_iff.2 ⟨r, hr⟩
  exact hid

/-- The later table has the symbols of the earlier one, under the same names. -/
structure Keeps (table later : SymbolTable) : Prop where
  allocated : ∀ a, table.Allocated a → later.Allocated a
  baseName : ∀ a, table.Allocated a → later.baseName? a = table.baseName? a
  mintedName : ∀ a, table.Allocated a → later.mintedName? a = table.mintedName? a

/-- A table keeps its own names. -/
theorem Keeps.refl (table : SymbolTable) : table.Keeps table :=
  ⟨fun _ h => h, fun _ _ => rfl, fun _ _ => rfl⟩

/-- Names kept by one table after another. -/
theorem Keeps.trans {a b c : SymbolTable} (h : a.Keeps b) (h' : b.Keeps c) : a.Keeps c where
  allocated s hs := h'.allocated s (h.allocated s hs)
  baseName s hs := (h'.baseName s (h.allocated s hs)).trans (h.baseName s hs)
  mintedName s hs := (h'.mintedName s (h.allocated s hs)).trans (h.mintedName s hs)

/-- A larger table keeps the names there were. -/
theorem Extends.keeps {later : SymbolTable} (h : later.Extends table) : table.Keeps later := by
  have hget : ∀ a : Symbol, table.Allocated a →
      later.get? (⟨a.index⟩ : SymbolId a.kind) = table.get? (⟨a.index⟩ : SymbolId a.kind) := by
    rintro ⟨k, i⟩ ha
    have hid : table.Allocated (⟨i⟩ : SymbolId k).symbol := ha
    obtain ⟨r, hr⟩ := allocated_iff.1 hid
    exact (h.get? hr).trans hr.symm
  refine ⟨fun _ => h.allocated, fun a ha => ?_, fun a ha => ?_⟩
  · rw [baseName?, hget a ha, baseName?]
  · rw [mintedName?, hget a ha, mintedName?]

/-- Completing a record does not change its name. -/
theorem modify_keeps (id : SymbolId k) {f : Record k → Record k}
    (hbase : ∀ r, Record.baseName? k (f r) = Record.baseName? k r)
    (hminted : ∀ r, Record.mintedName? k (f r) = Record.mintedName? k r) :
    table.Keeps (table.modify id f) := by
  have hbind : ∀ (name : (k : Kind) → Record k → Option Name), (∀ r, name k (f r) = name k r) →
      ∀ a : Symbol, ((table.modify id f).get? (⟨a.index⟩ : SymbolId a.kind)).bind (name a.kind) =
        (table.get? (⟨a.index⟩ : SymbolId a.kind)).bind (name a.kind) := by
    rintro name hname ⟨k', i⟩
    by_cases ha : (⟨i⟩ : SymbolId k').symbol = id.symbol
    · obtain rfl : k' = k := congrArg Symbol.kind ha
      obtain rfl := SymbolId.symbol_inj.1 ha
      show ((table.modify ⟨i⟩ f).get? ⟨i⟩).bind _ = (table.get? ⟨i⟩).bind _
      rw [get?_modify_self]
      cases table.get? (⟨i⟩ : SymbolId k') with
      | none => rfl
      | some r => exact hname r
    · exact congrArg (Option.bind · _) (get?_modify_of_ne table ha f)
  exact ⟨fun a ha => (allocated_modify table id f a).2 ha, fun a _ => hbind _ hbase a,
    fun a _ => hbind _ hminted a⟩

/-- Setting a list of parameters adds no symbol and takes none away. -/
theorem allocated_setParamList (params : List ParamId) (callable : Callable) (a : Symbol) :
    (table.setParamList params callable).Allocated a ↔ table.Allocated a := by
  cases callable with
  | fn id | ctor id => exact allocated_modify _ _ _ _

/-- Setting a list of parameters keeps all names. -/
theorem setParamList_keeps (params : List ParamId) (callable : Callable) :
    table.Keeps (table.setParamList params callable) := by
  cases callable with
  | fn id | ctor id => exact modify_keeps _ (fun _ => rfl) fun _ => rfl

end SymbolTable

/-! ### Drawing names -/

namespace CopyState

/-- On the way from one state to the other nothing happened to the symbols or to the map of
the copies, and the names in the log were drawn. -/
structure Drew (s : CopyState σ) (scheme : NameScheme) (log : List Draw) (s' : CopyState σ) :
    Prop where
  symbols : s'.program.symbols = s.program.symbols
  map : s'.map = s.map
  draws : s.program.supply.Draws log s'.program.supply
  scheme : ∀ d ∈ log, d.scheme = scheme

/-- On the way from one state to the other the names in the log were drawn, and the symbols
that were added are named by different ones of them.  What is recorded as a copy and has a
name of its own was given a name that was drawn for the name of what it copies. -/
structure Named (s : CopyState σ) (scheme : NameScheme) (log : List Draw) (s' : CopyState σ) :
    Prop where
  draws : s.program.supply.Draws log s'.program.supply
  scheme : ∀ d ∈ log, d.scheme = scheme
  keeps : s.program.symbols.Keeps s'.program.symbols
  minted : ∃ cs : List Symbol, cs.Nodup ∧
    (∀ c, c ∈ cs ↔ ¬ s.program.symbols.Allocated c ∧ s'.program.symbols.Allocated c) ∧
    (cs.filterMap s'.program.symbols.mintedName?).Sublist (log.map Draw.name)
  registered : ∀ a c, s'.map.copyOf? a = some c → s.map.copyOf? a = some c ∨
    s'.program.symbols.Allocated c ∧ ∀ n, s'.program.symbols.mintedName? c = some n →
      ∃ d ∈ log, d.name = n ∧ s'.program.symbols.baseName? a = some d.base

variable {scheme : NameScheme} {log log' : List Draw} {s s₁ s₂ : CopyState σ}

/-- Nothing is drawn at first. -/
theorem Drew.refl (s : CopyState σ) : s.Drew scheme [] s := ⟨rfl, rfl, .done _, nofun⟩

/-- Names drawn in two stretches, one after the other. -/
theorem Drew.trans (h : s.Drew scheme log s₁) (h' : s₁.Drew scheme log' s₂) :
    s.Drew scheme (log ++ log') s₂ where
  symbols := h'.symbols.trans h.symbols
  map := h'.map.trans h.map
  draws := h.draws.append h'.draws
  scheme := List.forall_mem_append.2 ⟨h.scheme, h'.scheme⟩

/-- Where no names are drawn, the log stays. -/
theorem Drew.idle (h : s.Drew scheme log s₁) (h' : s₁.Drew scheme [] s₂) :
    s.Drew scheme log s₂ := by
  have hall := h.trans h'
  rwa [List.append_nil] at hall

/-- What only draws names gives none of them to a symbol. -/
theorem Drew.named (h : s.Drew scheme log s₁) : s.Named scheme log s₁ where
  draws := h.draws
  scheme := h.scheme
  keeps := h.symbols ▸ .refl _
  minted := ⟨[], .nil, fun c => by rw [h.symbols]; simp, List.nil_sublist _⟩
  registered a c hc := .inl (h.map ▸ hc)

/-- Nothing is named at first. -/
theorem Named.refl (s : CopyState σ) : s.Named scheme [] s := (Drew.refl s).named

/-- Names given in two stretches, one after the other. -/
theorem Named.trans (h : s.Named scheme log s₁) (h' : s₁.Named scheme log' s₂) :
    s.Named scheme (log ++ log') s₂ where
  draws := h.draws.append h'.draws
  scheme := List.forall_mem_append.2 ⟨h.scheme, h'.scheme⟩
  keeps := h.keeps.trans h'.keeps
  minted := by
    obtain ⟨cs, hnodup, hcs, hnames⟩ := h.minted
    obtain ⟨cs', hnodup', hcs', hnames'⟩ := h'.minted
    refine ⟨cs ++ cs', List.nodup_append.2 ⟨hnodup, hnodup', ?_⟩, fun c => ?_, ?_⟩
    · rintro c hc _ hc' rfl
      exact ((hcs' c).1 hc').1 ((hcs c).1 hc).2
    · rw [List.mem_append, hcs, hcs']
      constructor
      · rintro (⟨hold, hnew⟩ | ⟨hold, hnew⟩)
        · exact ⟨hold, h'.keeps.allocated c hnew⟩
        · exact ⟨fun ha => hold (h.keeps.allocated c ha), hnew⟩
      · rintro ⟨hold, hnew⟩
        by_cases hmid : s₁.program.symbols.Allocated c
        · exact .inl ⟨hold, hmid⟩
        · exact .inr ⟨hmid, hnew⟩
    · -- the names of what was added first have stayed
      have hkept : cs.filterMap s₂.program.symbols.mintedName? =
          cs.filterMap s₁.program.symbols.mintedName? :=
        List.filterMap_congr fun c hc => h'.keeps.mintedName c ((hcs c).1 hc).2
      rw [List.filterMap_append, List.map_append, hkept]
      exact hnames.append hnames'
  registered a c hc := by
    rcases h'.registered a c hc with hc | ⟨hthere, hname⟩
    · rcases h.registered a c hc with hc | ⟨hthere, hname⟩
      · exact .inl hc
      · refine .inr ⟨h'.keeps.allocated c hthere, fun n hn => ?_⟩
        rw [h'.keeps.mintedName c hthere] at hn
        obtain ⟨d, hd, hdn, hbase⟩ := hname n hn
        refine ⟨d, List.mem_append_left _ hd, hdn, ?_⟩
        exact (h'.keeps.baseName a (SymbolTable.allocated_of_baseName? hbase)).trans hbase
    · refine .inr ⟨hthere, fun n hn => ?_⟩
      obtain ⟨d, hd, hdn, hbase⟩ := hname n hn
      exact ⟨d, List.mem_append_right _ hd, hdn, hbase⟩

/-- A record that is to be added as the copy of a symbol has no name of its own, or one from the
log that was drawn for the name of the symbol. -/
structure Suits (s : CopyState σ) (log : List Draw) (id : SymbolId k) (r : Record k) : Prop where
  sublist : (Record.mintedName? k r).toList.Sublist (log.map Draw.name)
  base : ∀ n, Record.mintedName? k r = some n →
    ∃ d ∈ log, d.name = n ∧ s.program.symbols.baseName? id.symbol = some d.base

/-- A record without a name of its own suits. -/
theorem Suits.unnamed {id : SymbolId k} {r : Record k} (h : Record.mintedName? k r = none) :
    s.Suits log id r := by
  refine ⟨?_, fun n hn => ?_⟩
  · rw [h]
    exact List.nil_sublist _
  · rw [h] at hn
    cases hn

/-- A record suits whose name was drawn for the name of what it copies. -/
theorem Suits.drawn {id : SymbolId k} {original r : Record k} {d : Draw}
    (hid : s.program.symbols.get? id = some original)
    (hbase : Record.baseName? k original = some d.base)
    (hname : Record.mintedName? k r = some d.name) : s.Suits [d] id r := by
  refine ⟨?_, fun n hn => ⟨d, .head _, Option.some.inj (hname.symm.trans hn), ?_⟩⟩
  · rw [hname]
    exact List.Sublist.refl [d.name]
  · rw [SymbolTable.baseName?_symbol, hid]
    exact hbase

/-- A record that is added after some names were drawn may have one of them. -/
theorem Drew.mint (h : s.Drew scheme log s₁) (r : Record k)
    (hname : (Record.mintedName? k r).toList.Sublist (log.map Draw.name)) :
    s.Named scheme log (s₁.withSymbols (s₁.program.symbols.add r).2) where
  draws := h.draws
  scheme := h.scheme
  keeps := h.symbols ▸ (s₁.program.symbols.add_extends r).keeps
  minted := by
    refine ⟨[⟨k, s₁.program.symbols.count k⟩], List.nodup_singleton _, fun c => ?_, ?_⟩
    · show _ ↔ _ ∧ (s₁.program.symbols.add r).2.Allocated c
      rw [SymbolTable.allocated_add, List.mem_singleton, ← h.symbols]
      constructor
      · rintro rfl
        exact ⟨Nat.lt_irrefl _, .inr rfl⟩
      · rintro ⟨hold, hnew⟩
        exact hnew.resolve_left hold
    · have hminted : (s₁.program.symbols.add r).2.mintedName? ⟨k, s₁.program.symbols.count k⟩ =
          Record.mintedName? k r :=
        congrArg (fun r => r.bind (Record.mintedName? k)) (s₁.program.symbols.get?_add_self r)
      show (List.filterMap (s₁.program.symbols.add r).2.mintedName? [_]).Sublist _
      rw [List.filterMap_cons, List.filterMap_nil, hminted]
      cases hr : Record.mintedName? k r with
      | none => exact List.nil_sublist _
      | some n => exact hr ▸ hname
  registered a c hc := .inl (h.map ▸ hc)

/-- Records may be completed. -/
theorem Named.withSymbols (h : s.Named scheme log s₁) {symbols : SymbolTable}
    (hkeeps : s₁.program.symbols.Keeps symbols)
    (hsame : ∀ c, symbols.Allocated c → s₁.program.symbols.Allocated c) :
    s.Named scheme log (s₁.withSymbols symbols) := by
  have hidle : s₁.Named scheme [] (s₁.withSymbols symbols) := by
    refine ⟨.done _, nofun, hkeeps, ⟨[], .nil, fun c => ?_, List.nil_sublist _⟩, fun a c => .inl⟩
    exact ⟨nofun, fun ⟨hold, hnew⟩ => absurd (hsame c hnew) hold⟩
  have hall := h.trans hidle
  rwa [List.append_nil] at hall

/-- A copy may be recorded if it has no name of its own, or one that was drawn for it. -/
theorem Named.register (h : s.Named scheme log s₁) [k.Copied] {id copy : SymbolId k}
    {map : CopyMap} (hi : s₁.map.insert id copy = .ok map)
    (hthere : s₁.program.symbols.Allocated copy.symbol)
    (hname : ∀ n, s₁.program.symbols.mintedName? copy.symbol = some n →
      ∃ d ∈ log, d.name = n ∧ s₁.program.symbols.baseName? id.symbol = some d.base) :
    s.Named scheme log { s₁ with map } where
  draws := h.draws
  scheme := h.scheme
  keeps := h.keeps
  minted := h.minted
  registered a c hc := by
    rw [CopyMap.copyOf?_insert hi] at hc
    split at hc
    · rename_i ha
      cases hc
      subst ha
      exact .inr ⟨hthere, hname⟩
    · exact h.registered a c hc

end CopyState

/-! ### Actions that draw no names -/

namespace CopyJob

open CopyM CopyState

variable {scheme : NameScheme}

/-- The action draws no names and adds no symbols, however it ends. -/
def Idle (scheme : NameScheme) (m : CopyM σ α) : Prop :=
  ∀ s, Ends m s (fun _ s' => s.Drew scheme [] s') (fun _ s' => s.Drew scheme [] s')

/-- To return a value is idle. -/
theorem idle_pure (a : α) : Idle scheme (pure a : CopyM σ α) := .refl

/-- Two idle actions are idle together. -/
theorem Idle.bind {m : CopyM σ α} {f : α → CopyM σ β} (hm : Idle scheme m)
    (hf : ∀ a, Idle scheme (f a)) : Idle scheme (m >>= f) := fun s =>
  Ends.bind ((hm s).imp (fun a s₁ h₁ => (hf a s₁).imp (fun _ _ h₂ => h₁.idle h₂)
    fun _ _ h₂ => h₁.idle h₂) fun _ _ h => h)

/-- Idle actions over a list are idle together. -/
theorem Idle.mapM {f : α → CopyM σ β} (hf : ∀ a, Idle scheme (f a)) (xs : List α) :
    Idle scheme (xs.mapM f) := by
  induction xs with
  | nil => exact idle_pure []
  | cons x xs ih =>
    rw [List.mapM_cons]
    exact (hf x).bind fun _ => ih.bind fun _ => idle_pure _

/-- An idle action on a value that may be missing is idle. -/
theorem Idle.option_mapM {f : α → CopyM σ β} (hf : ∀ a, Idle scheme (f a)) (x : Option α) :
    Idle scheme (x.mapM f) := by
  cases x with
  | none => exact idle_pure none
  | some x => exact (hf x).bind fun _ => idle_pure _

/-- To reject a tree is idle. -/
theorem idle_reject (e : Rejection) : Idle scheme (reject e : CopyM σ α) := .refl

/-- To read the copies is idle. -/
theorem idle_copies : Idle scheme (copies : CopyM σ CopyMap) := .refl

/-- To substitute is idle. -/
theorem idle_substitute (job : CopyJob σ) (t : TypeId) : Idle scheme (job.substitute t) := by
  intro s
  have hdrew : ∀ pool memory, s.Drew scheme []
      { s with program := { s.program with pool }, memory } :=
    fun pool memory => ⟨rfl, rfl, .done _, nofun⟩
  refine (job.substitute_frame t s).imp ?_ ?_
  · rintro t' s' ⟨pool, memory, rfl⟩
    exact hdrew pool memory
  · rintro e s' ⟨pool, memory, rfl⟩
    exact hdrew pool memory

/-- To read the copy of a constructor is idle. -/
theorem idle_copiedConstructor (cls : ClassId) (constructor : ConstructorId) :
    Idle scheme (copiedConstructor cls constructor : CopyM σ ConstructorId) := by
  refine idle_copies.bind fun map => ?_
  split
  · exact idle_pure _
  · exact idle_reject _

/-- To substitute in type arguments is idle. -/
theorem idle_substituteArgs (job : CopyJob σ) (args : Option TypeArguments) :
    Idle scheme (job.substituteArgs args) := by
  refine Idle.option_mapM (fun args => ?_) args
  refine (Idle.mapM (fun entry => ?_) _).bind fun entries => idle_pure _
  exact (idle_substitute job entry.2).bind fun _ => idle_pure _

/-- To point a node at the copies is idle. -/
theorem idle_resolve (job : CopyJob σ) (n : Node) : Idle scheme (job.resolve n) := by
  refine idle_copies.bind fun map => ?_
  cases n with
  | classDecl | functionDecl | constructorDecl | variableDecl | getValue | setVariable |
    whileLoop => exact idle_pure _
  | call =>
    refine (idle_substitute job _).bind fun ty => ?_
    exact (idle_substituteArgs job _).bind fun typeArgs => idle_pure _
  | callableRef =>
    dsimp only
    split
    · exact idle_pure _
    · refine (idle_substitute job _).bind fun ty => ?_
      exact (idle_substituteArgs job _).bind fun typeArgs => idle_pure _
  | returnFrom =>
    dsimp only
    split
    · exact idle_pure _
    · exact (idle_substitute job _).bind fun ty => idle_pure _
  | block | const | «when» => exact (idle_substitute job _).bind fun ty => idle_pure _
  | typeOp =>
    refine (idle_substitute job _).bind fun ty => ?_
    exact (idle_substitute job _).bind fun operandTy => idle_pure _

/-- The second pass draws no names. -/
theorem idle_redirectReferences (job : CopyJob σ) (n : Node) :
    Idle scheme (job.redirectReferences n) := by
  unfold redirectReferences
  induction n using Node.induction_children with
  | step n ih =>
    rw [Node.rebuildChildren_eq, map_eq_pure_bind]
    refine Idle.bind (fun s => ?_) fun cs => idle_pure _
    refine Ends.mapM (I := fun _ _ s' => s.Drew scheme [] s') _ (.refl s) ?_
    intro done c rest hsplit copies s₁ h₁
    have hc : c ∈ n.children := hsplit ▸ List.mem_append_right _ (.head _)
    have hchild := ((ih c hc).bind fun c' => idle_resolve job c') s₁
    exact hchild.imp (fun _ _ h₂ => h₁.idle h₂) fun _ _ h₂ => h₁.idle h₂

/-! ### Declarations -/

variable (job : CopyJob σ) {s s₁ : CopyState σ} {log : List Draw}

/-- A name is drawn, unless there is no room for it. -/
theorem freshName_drew (base : Name) (s : CopyState σ) :
    Ends (job.freshName base) s
      (fun name s' =>
        s.Drew job.scheme [⟨job.scheme, base, s.program.supply.next, name⟩] s')
      (fun _ s' => s.Drew job.scheme [] s') := by
  unfold Ends freshName
  dsimp only
  cases h : job.scheme.fresh base s.program.supply with
  | ok name supply => exact ⟨rfl, rfl, .drawn h (.done _), by simp⟩
  | error e supply => exact ⟨rfl, rfl, .refused h (.done _), nofun⟩

/-- To register a copy, if its name was drawn for the name of what it copies. -/
theorem register_named (h : s.Named scheme log s₁) [k.Copied] {id copy : SymbolId k}
    (hthere : s₁.program.symbols.Allocated copy.symbol)
    (hname : ∀ n, s₁.program.symbols.mintedName? copy.symbol = some n →
      ∃ d ∈ log, d.name = n ∧ s₁.program.symbols.baseName? id.symbol = some d.base) :
    Ends (register id copy) s₁ (fun _ s' => s.Named scheme log s')
      (fun _ s' => s.Named scheme log s') := by
  unfold Ends CopyM.register
  cases hi : s₁.map.insert id copy with
  | ok map => exact h.register hi hthere hname
  | error e => exact h

/-- Parameters are given no names of their own. -/
theorem mintParams_named (scheme : NameScheme) (params : List ParamId) (owner : Callable)
    (s : CopyState σ) :
    Ends (job.mintParams params owner) s (fun _ s' => s.Named scheme [] s')
      (fun _ s' => s.Named scheme [] s') := by
  refine Ends.mapM (I := fun _ _ s' => s.Named scheme [] s') params (.refl s) ?_
  intro done p rest _ copies s₁ h₁
  have hnext : ∀ {s₂}, s₁.Drew scheme [] s₂ → s.Named scheme [] s₂ := fun h => h₁.trans h.named
  cases hr : s₁.program.symbols.get? p with
  | none => exact Ends.bind (Ends.of_eq_error (record_of_none hr) h₁)
  | some r =>
    refine Ends.bind (Ends.of_eq_ok (record_of_some hr) ?_)
    refine Ends.bind ((idle_substitute job r.ty s₁).imp (fun ty s₂ h₂ => ?_) fun _ _ => hnext)
    refine Ends.bind ((Idle.option_mapM (idle_substitute job) r.varargElement s₂).imp
      (fun varargElement s₃ h₃ => ?_) fun _ _ h₃ => hnext (h₂.idle h₃))
    refine Ends.bind (show Ends (mint _) s₃ _ _ from ?_)
    have hminted : s.Named scheme [] _ := h₁.trans ((h₂.idle h₃).mint (k := .param)
      { r with owner, derivedFrom := some (r.root p), ty, varargElement } (List.nil_sublist _))
    have hself := s₃.program.symbols.get?_add_self (k := .param)
      { r with owner, derivedFrom := some (r.root p), ty, varargElement }
    refine Ends.bind ((register_named hminted (SymbolTable.allocated_iff.2 ⟨_, hself⟩)
      fun n hn => ?_).imp (fun _ _ h => h) fun _ _ h => h)
    rw [SymbolTable.mintedName?_symbol] at hn
    cases hn.symm.trans (congrArg (Option.bind · _) hself)

/-- A callable is added under a name that was drawn for it, if it has one, and is completed
and recorded. -/
theorem declare_named (h : s.Drew scheme log s₁) [k.Copied] (id : SymbolId k) (r : Record k)
    (callable : SymbolId k → Callable) (params : List ParamId) (hname : s.Suits log id r) :
    Ends
      (do
        let copy ← mint r
        setParamList (callable copy) (← job.mintParams params (callable copy))
        register id copy) s₁
      (fun _ s' => s.Named scheme log s') (fun _ s' => s.Named scheme log s') := by
  refine Ends.bind (show Ends (mint r) s₁ _ _ from ?_)
  have hminted := h.mint r hname.sublist
  have hself := s₁.program.symbols.get?_add_self r
  have hthere : (s₁.program.symbols.add r).2.Allocated (s₁.program.symbols.add r).1.symbol :=
    SymbolTable.allocated_iff.2 ⟨r, hself⟩
  refine Ends.bind ((job.mintParams_named scheme params _ _).imp (fun copies s₂ h₂ => ?_)
    fun _ _ h₂ => ?_)
  · have hall := hminted.trans h₂
    rw [List.append_nil] at hall
    have hkeeps := s₂.program.symbols.setParamList_keeps copies
      (callable (s₁.program.symbols.add r).1)
    have hset := hall.withSymbols hkeeps fun c => (SymbolTable.allocated_setParamList _ _ _).1
    refine Ends.bind (show Ends (setParamList _ copies) s₂ _ _ from ?_)
    refine register_named hset (hkeeps.allocated _ (h₂.keeps.allocated _ hthere)) fun n hn => ?_
    have hn' : Record.mintedName? k r = some n := by
      have hcopy := (hkeeps.mintedName _ (h₂.keeps.allocated _ hthere)).trans
        (h₂.keeps.mintedName _ hthere)
      rw [← hn]
      exact ((congrArg (Option.bind · _) hself).symm.trans hcopy.symm)
    obtain ⟨d, hd, hdn, hdb⟩ := hname.base n hn'
    refine ⟨d, hd, hdn, (hset.keeps.baseName _ ?_).trans hdb⟩
    exact SymbolTable.allocated_of_baseName? hdb
  · have hall := hminted.trans h₂
    rwa [List.append_nil] at hall

/-- Run from any state, the action draws names for what it adds, however it ends. -/
def Names (m : CopyM σ α) : Prop :=
  ∀ s, Ends m s (fun _ s' => ∃ log, s.Named job.scheme log s')
    (fun _ s' => ∃ log, s.Named job.scheme log s')

variable {job}

/-- An idle action names nothing. -/
theorem Idle.names {m : CopyM σ α} (h : Idle job.scheme m) : job.Names m := fun s =>
  (h s).imp (fun _ _ h => ⟨_, h.named⟩) fun _ _ h => ⟨_, h.named⟩

/-- Two actions that draw the names of what they add, one after the other. -/
theorem Names.bind {m : CopyM σ α} {f : α → CopyM σ β} (hm : job.Names m)
    (hf : ∀ a, job.Names (f a)) : job.Names (m >>= f) := fun s =>
  Ends.bind ((hm s).imp (fun a s₁ ⟨_, h₁⟩ => (hf a s₁).imp (fun _ _ ⟨_, h₂⟩ => ⟨_, h₁.trans h₂⟩)
    fun _ _ ⟨_, h₂⟩ => ⟨_, h₁.trans h₂⟩) fun _ _ h => h)

/-- Actions over a list that draw the names of what they add. -/
theorem Names.forM {f : α → CopyM σ PUnit} {xs : List α} (hf : ∀ x ∈ xs, job.Names (f x)) :
    job.Names (ForM.forM xs f) := by
  induction xs with
  | nil => exact (idle_pure _).names
  | cons x xs ih =>
    rw [List.forM_cons]
    exact (hf x (.head _)).bind fun _ => ih fun y hy => hf y (.tail _ hy)

variable (job)

/-- The copy of a function has a name that was drawn for it. -/
theorem names_mintFunction (function : FunctionId) : job.Names (job.mintFunction function) := by
  intro s
  cases hr : s.program.symbols.get? function with
  | none => exact Ends.bind (Ends.of_eq_error (record_of_none hr) ⟨_, .refl s⟩)
  | some r =>
    refine Ends.bind (Ends.of_eq_ok (record_of_some hr) ?_)
    dsimp only
    split
    · exact ⟨_, .refl s⟩
    · refine Ends.bind ((job.freshName_drew r.name s).imp (fun name s₁ h₁ => ?_)
        fun _ _ h => ⟨_, h.named⟩)
      refine Ends.bind ((idle_substitute job r.returnType s₁).imp (fun returnType s₂ h₂ => ?_)
        fun _ _ h₂ => ⟨_, (h₁.idle h₂).named⟩)
      refine Ends.bind ((Idle.option_mapM (idle_substitute job) r.extensionReceiver s₂).imp
        (fun extensionReceiver s₃ h₃ => ?_) fun _ _ h₃ => ⟨_, ((h₁.idle h₂).idle h₃).named⟩)
      exact (job.declare_named ((h₁.idle h₂).idle h₃) function _ .fn r.params
        (.drawn hr rfl rfl)).imp (fun _ _ h => ⟨_, h⟩) fun _ _ h => ⟨_, h⟩

/-- The copy of a constructor has no name of its own. -/
theorem names_mintConstructor (constructor : ConstructorId) :
    job.Names (job.mintConstructor constructor) := by
  intro s
  cases hr : s.program.symbols.get? constructor with
  | none => exact Ends.bind (Ends.of_eq_error (record_of_none hr) ⟨_, .refl s⟩)
  | some r =>
    refine Ends.bind (Ends.of_eq_ok (record_of_some hr) ?_)
    refine Ends.bind (Ends.of_eq_ok (show copies s = .ok s.map s from rfl) ?_)
    dsimp only
    cases s.map.get? r.cls with
    | none => exact ⟨_, .refl s⟩
    | some cls =>
      dsimp only
      split
      · exact ⟨_, .refl s⟩
      · refine Ends.bind ((idle_substitute job r.returnType s).imp (fun returnType s₁ h₁ => ?_)
          fun _ _ h => ⟨_, h.named⟩)
        refine Ends.bind ((Idle.option_mapM (idle_substitute job) r.dispatchReceiver s₁).imp
          (fun dispatchReceiver s₂ h₂ => ?_) fun _ _ h₂ => ⟨_, (h₁.idle h₂).named⟩)
        exact (job.declare_named (h₁.idle h₂) constructor _ .ctor r.params (.unnamed rfl)).imp
          (fun _ _ h => ⟨_, h⟩) fun _ _ h => ⟨_, h⟩

/-- The copy of an `invoke` operator keeps the name of the operator. -/
theorem mintInvoke_named {invoke : FunctionId} {r : FunctionRecord}
    (hr : s.program.symbols.get? invoke = some r) (hinvoke : r.isTypeInvoke = true) :
    Ends (job.mintInvoke invoke) s (fun _ s' => ∃ log, s.Named job.scheme log s')
      (fun _ s' => ∃ log, s.Named job.scheme log s') := by
  refine Ends.bind (Ends.of_eq_ok (record_of_some hr) ?_)
  refine Ends.bind ((idle_substitute job r.returnType s).imp (fun returnType s₁ h₁ => ?_)
    fun _ _ h => ⟨_, h.named⟩)
  have hnone : Record.mintedName? .fn { r with returnType, params := [] } = none := if_pos hinvoke
  exact (job.declare_named h₁ invoke _ .fn r.params (.unnamed hnone)).imp
    (fun _ _ h => ⟨_, h⟩) fun _ _ h => ⟨_, h⟩

/-- A class or a variable is added under a name that was drawn for it, and recorded. -/
theorem mint_register_named (h : s.Drew scheme log s₁) [k.Copied] (id : SymbolId k)
    (r : Record k) (hname : s.Suits log id r) :
    Ends (mint r) s₁
      (fun copy s₂ => Ends (register id copy) s₂ (fun _ s' => s.Named scheme log s')
        (fun _ s' => s.Named scheme log s'))
      (fun _ _ => False) := by
  have hminted := h.mint r hname.sublist
  have hself := s₁.program.symbols.get?_add_self r
  refine register_named hminted (SymbolTable.allocated_iff.2 ⟨r, hself⟩) fun n hn => ?_
  obtain ⟨d, hd, hdn, hdb⟩ := hname.base n ((congrArg (Option.bind · _) hself).symm.trans hn)
  exact ⟨d, hd, hdn, (hminted.keeps.baseName _ (SymbolTable.allocated_of_baseName? hdb)).trans hdb⟩

/-- The copy of a variable has a name that was drawn for it. -/
theorem names_mintVariable (variableId : VariableId) :
    job.Names (job.mintVariable variableId) := by
  intro s
  cases hr : s.program.symbols.get? variableId with
  | none => exact Ends.bind (Ends.of_eq_error (record_of_none hr) ⟨_, .refl s⟩)
  | some r =>
    refine Ends.bind (Ends.of_eq_ok (record_of_some hr) ?_)
    refine Ends.bind ((job.freshName_drew r.name s).imp (fun name s₁ h₁ => ?_)
      fun _ _ h => ⟨_, h.named⟩)
    refine Ends.bind ((idle_substitute job r.ty s₁).imp (fun ty s₂ h₂ => ?_)
      fun _ _ h₂ => ⟨_, (h₁.idle h₂).named⟩)
    exact Ends.bind ((mint_register_named (h₁.idle h₂) variableId _ (.drawn hr rfl rfl)).imp
      (fun copy s₃ h₃ => h₃.imp (fun _ _ h => ⟨_, h⟩) fun _ _ h => ⟨_, h⟩) fun _ _ h => h.elim)

/-- What a node declares is given names that were drawn for it. -/
theorem names_mintOwn (n : Node) : job.Names (job.mintOwn n) := by
  unfold mintOwn
  split
  · exact job.names_mintFunction _
  · exact job.names_mintConstructor _
  · exact job.names_mintVariable _
  · rename_i callee _ _ _ _ _
    intro s
    cases hr : s.program.symbols.get? callee with
    | none => exact Ends.bind (Ends.of_eq_error (record_of_none hr) ⟨_, .refl s⟩)
    | some r =>
      refine Ends.bind (Ends.of_eq_ok (record_of_some hr) ?_)
      refine Ends.bind (Ends.of_eq_ok (show copies s = .ok s.map s from rfl) ?_)
      split
      · rename_i hmint
        exact job.mintInvoke_named hr (Bool.and_eq_true_iff.1 hmint).1
      · exact ⟨_, .refl s⟩
  · exact (idle_pure _).names

/-- To copy the supertypes of a class is idle. -/
theorem idle_copySupertypes (r : ClassRecord) : Idle scheme (job.copySupertypes r) := by
  unfold copySupertypes
  split
  · exact Idle.mapM (idle_substitute job) _
  · exact idle_pure _

/-- The copy of a class has a name that was drawn for it. -/
theorem names_openClass (cls : ClassId) : job.Names (job.openClass cls) := by
  intro s
  rw [openClass_eq]
  cases hr : s.program.symbols.get? cls with
  | none => exact Ends.bind (Ends.of_eq_error (record_of_none hr) ⟨_, .refl s⟩)
  | some r =>
    refine Ends.bind (Ends.of_eq_ok (record_of_some hr) ?_)
    refine Ends.bind ((job.idle_copySupertypes r s).imp (fun supertypes s₁ h₁ => ?_)
      fun _ _ h => ⟨_, h.named⟩)
    refine Ends.bind ((job.freshName_drew r.name s₁).imp (fun name s₂ h₂ => ?_)
      fun _ _ h₂ => ⟨_, (h₁.idle h₂).named⟩)
    refine Ends.bind ((mint_register_named (h₁.trans h₂) cls _ (.drawn hr rfl rfl)).imp
      (fun copy s₃ h₃ => ?_) fun _ _ h => h.elim)
    exact Ends.bind (h₃.imp (fun _ _ h => ⟨_, h⟩) fun _ _ h => ⟨_, h⟩)

/-- Closing a class names nothing. -/
theorem names_closeClass (cls : ClassId) (r : ClassRecord) (copy : ClassId) :
    job.Names (closeClass cls r copy) := by
  refine (Idle.mapM (idle_copiedConstructor cls) _).names.bind fun constructors => ?_
  refine (Idle.option_mapM (idle_copiedConstructor cls) _).names.bind fun primary s => ?_
  have hkeeps := s.program.symbols.modify_keeps copy
    (f := fun (r : ClassRecord) => { r with constructors, primary }) (fun _ => rfl) fun _ => rfl
  exact ⟨_, (Named.refl s).withSymbols hkeeps fun c => (SymbolTable.allocated_modify _ _ _ c).1⟩

/-- **Copying declarations draws names for what is added.** -/
theorem names_copyDeclarations (n : Node) : job.Names (job.copyDeclarations n) := by
  induction n using Node.induction_children with
  | step n ih =>
    have below : job.Names (ForM.forM n.children job.copyDeclarations) := Names.forM ih
    rw [copyDeclarations_eq]
    split
    · exact (job.names_openClass _).bind fun opened => below.bind fun _ =>
        job.names_closeClass _ opened.1 opened.2
    · exact (job.names_mintOwn n).bind fun _ => below

end CopyJob

namespace Copier

open CopyM CopyState CopyJob

variable (copier : Copier σ)

/-- The second pass is idle. -/
theorem idle_secondPass (scheme : NameScheme) (job : CopyJob σ) (root : Node) :
    Idle scheme (copier.secondPass job root) := by
  refine (idle_redirectReferences job root).bind fun copy => idle_copies.bind fun map => ?_
  split
  · split
    · exact idle_reject _
    · exact idle_pure _
  · exact idle_pure _

/-- Both passes draw the names of what they add. -/
theorem names_passes (job : CopyJob σ) (root : Node) : job.Names (copier.passes job root) :=
  (Names.forM fun c _ => job.names_copyDeclarations c).bind fun _ =>
    (copier.idle_secondPass job.scheme job root).names

/-- **Every copy draws names for what it adds,** however it ends. -/
theorem actions_named (root : Node) (inlined : String) (s : CopyState σ) :
    Ends (copier.actions root inlined) s
      (fun _ s' => ∃ log, s.Named (copier.job s.program inlined).scheme log s')
      (fun _ s' => ∃ log, s.Named (copier.job s.program inlined).scheme log s') :=
  copier.actions_ends (fun _ => copier.names_passes _ root s) fun _ => ⟨_, .refl s⟩

/-- A name that was drawn for the copy of a symbol is made of what the name of the symbol stood for
when it was drawn. -/
theorem copy_drawn {root : Node} {inlined : String} {start later : Program} {memory memory' : σ}
    {copied : Copied}
    (hcopy : copier.copy root inlined (start, memory) = .ok copied (later, memory')) {a : Symbol}
    (ha : start.symbols.Allocated a) (hkey : a ∈ copied.map.keys) {n : Name}
    (hn : later.symbols.mintedName? (copied.map.image a) = some n) :
    ∃ (base : Name) (middle : NameSupply), start.symbols.baseName? a = some base ∧
      start.supply.DrawnAt middle later.supply ∧
      later.lookup n = (copier.job start inlined).scheme.text (middle.names.lookup base)
        middle.next := by
  obtain ⟨log, hnamed⟩ := (copier.actions_named root inlined _).ok_of_eq (actions_of_copy hcopy)
  obtain ⟨c, hc⟩ := CopyMap.mem_keys.1 hkey
  rw [CopyMap.image_of_copyOf? hc] at hn
  obtain ⟨-, hdrawn⟩ := (hnamed.registered a c hc).resolve_left CopyMap.copyOf?_empty_ne
  obtain ⟨d, hd, rfl, hbase⟩ := hdrawn n hn
  obtain ⟨middle, hmiddle, hnumber, hmeans⟩ := hnamed.draws.ordered.names d hd
  refine ⟨d.base, middle, ?_, hmiddle, ?_⟩
  · rw [← hbase, hnamed.keeps.baseName a ha]
  · rw [← hnamed.scheme d hd, hnumber]
    exact hmeans.lookup

/-- The program that a copy leaves behind, however it ends. -/
def leaves (root : Node) (inlined : String) (program : Program) (memory : σ) : Program :=
  match copier.copy root inlined (program, memory) with
  | .ok _ s => s.1
  | .error _ s => s.1

/-- What holds of the state that the actions end in holds of what the copy leaves. -/
theorem leaves_of_ends {root : Node} {inlined : String} {program : Program} {memory : σ}
    {P : CopyState σ → Prop} (h : Ends (copier.actions root inlined) { program, memory }
      (fun _ => P) (fun _ => P)) :
    ∃ s, P s ∧ s.program = copier.leaves root inlined program memory := by
  unfold leaves copy
  dsimp only
  cases hm : copier.actions root inlined { program, memory } with
  | ok copied s => exact ⟨s, h.ok_of_eq hm, rfl⟩
  | error e s => exact ⟨s, h.err_of_eq hm, rfl⟩

end Copier

end Graft
