/-
# The journal of a first pass

For every node that it meets, the first pass asks the substitutor for the types in the record of
what the node declares, and of the parameters that come with it, and for a class, a function or a
variable it draws a name.  `CopyState.Journal` says in which order this was done between two
states, and how the copies that were made meanwhile are called.  The types and the names are read
off the records that are there in the end: what is read of a record stays (`SymbolTable.Retains`).
The nodes are met in preorder, so this is the order of the journal
(`CopyJob.journals_copyDeclarations`), whatever the substitutor does.
-/

import Graft.Proofs.Copy.Asking
import Graft.Proofs.Copy.Lawful
import Graft.Proofs.Copy.Minting
import Graft.Proofs.Copy.Naming
import Graft.Proofs.Copy.Role
import Graft.Proofs.Symbol.Retention

namespace Graft

variable {σ α β : Type} {k : Kind}

/-! ### What is asked for -/

namespace SymbolTable

variable {table later : SymbolTable} {rule : SupertypeRule}

/-- The types in the record of a symbol that are exchanged when it is copied in the given role. -/
def exchanged (table : SymbolTable) (rule : SupertypeRule) (id : SymbolId k)
    (role : CopyRole k) : List TypeId := (table.get? id).elim [] (role.types rule)

/-- The types of the parameters of a callable, from left to right. -/
def exchangedParams (table : SymbolTable) (rule : SupertypeRule) (callable : Callable) :
    List TypeId :=
  (table.paramsOf callable).flatMap fun p => table.exchanged rule p (.param callable p)

/-- The types exchanged for a symbol are those its record has in its role. -/
theorem exchanged_of_get? {id : SymbolId k} {r : Record k} (hr : table.get? id = some r)
    (role : CopyRole k) : table.exchanged rule id role = role.types rule r := by
  rw [exchanged, hr]
  rfl

/-- The types that are exchanged stay. -/
theorem Retains.exchanged (h : later.Retains table) {id : SymbolId k} {r : Record k}
    (hr : table.get? id = some r) (role : CopyRole k) :
    later.exchanged rule id role = role.types rule r := by
  have hsettled : ∀ r, role.types rule (Record.settled k r) = role.types rule r := by
    intro r
    cases role <;> rfl
  obtain ⟨r', hr', heq⟩ := h _ id r hr
  rw [exchanged_of_get? hr', ← hsettled r', heq, hsettled]

end SymbolTable

namespace Node

/-- The symbol that a node gives a copy to, besides parameters: the one that it declares, or the
`invoke` operator that it calls. -/
def registered (table : SymbolTable) (n : Node) : List Symbol :=
  n.declared?.toList ++ (n.invoked? table).toList.map SymbolId.symbol

/-- The symbol that a node declares if the copy of it is given a numbered name: a class, a function
or a variable. -/
def numbered? : Node → Option Symbol
  | .classDecl _ _ symbol _ => some symbol.symbol
  | .functionDecl _ _ symbol _ => some symbol.symbol
  | .variableDecl _ _ symbol _ => some symbol.symbol
  | _ => none

/-- The types that are asked for when a node is met and the symbols `seen` have copies. -/
def typesMet (table : SymbolTable) (rule : SupertypeRule) (seen : List Symbol) : Node → List TypeId
  | .classDecl _ _ symbol _ => table.exchanged rule symbol .cls
  | .functionDecl _ _ symbol _ =>
    table.exchanged rule symbol .fn ++ table.exchangedParams rule (.fn symbol)
  | .constructorDecl _ _ symbol _ =>
    table.exchanged rule symbol .ctor ++ table.exchangedParams rule (.ctor symbol)
  | .variableDecl _ _ symbol _ => table.exchanged rule symbol .var
  | .call _ _ _ (.fn callee) .. =>
    if table.isInvoke callee = true ∧ callee.symbol ∉ seen then
      table.exchanged rule callee .invoke ++ table.exchangedParams rule (.fn callee)
    else
      []
  | _ => []

/-- The types that are asked for as nodes are met one after the other. -/
def typesMetAll (table : SymbolTable) (rule : SupertypeRule) : List Symbol → List Node → List TypeId
  | _, [] => []
  | seen, n :: ns =>
    n.typesMet table rule seen ++ typesMetAll table rule (seen ++ n.registered table) ns

/-- The types met in two lists of nodes, the second after the symbols of the first. -/
theorem typesMetAll_append (table : SymbolTable) (rule : SupertypeRule) (seen : List Symbol)
    (ns ms : List Node) :
    typesMetAll table rule seen (ns ++ ms) = typesMetAll table rule seen ns ++
      typesMetAll table rule (seen ++ ns.flatMap (registered table)) ms := by
  induction ns generalizing seen with
  | nil => simp [typesMetAll]
  | cons n ns ih => simp [typesMetAll, ih]

end Node

/-! ### Entries -/

/-- On the way from one state to the other the substitutor was asked for the types, and the symbols
`own` and some parameters were given copies.  In the end the copies of `own` have the given names,
and those of the parameters have the names of what they copy. -/
structure CopyState.Enters (s : CopyState σ) (job : CopyJob σ) (table : SymbolTable)
    (types : List TypeId) (own : List (Symbol × Option Name)) (s' : CopyState σ) : Prop where
  supply : s'.program.supply = s.program.supply
  asked : ∃ ts, types.mapM (Substitutor.applyOrKeep job.substitutor)
    (s.program.pool, s.memory) = .ok ts (s'.program.pool, s'.memory)
  kept : ∀ a c, s.map.copyOf? a = some c → s'.map.copyOf? a = some c
  copied : ∀ d ∈ own, ∃ c, s'.map.copyOf? d.1 = some c ∧ table.name? c = d.2
  others : ∀ a ∈ s'.map.keys, a ∈ s.map.keys ∨ a ∈ own.map Prod.fst ∨
    a.kind = .param ∧ ∃ c, s'.map.copyOf? a = some c ∧ table.name? c = table.name? a

/-- On the way from one state to the other the substitutor was asked for the types, names were drawn
for the symbols that `named` lists with them, and the symbols `registered` and some parameters were
given copies.  In the end the copies are called by the names that were drawn, and otherwise as what
they copy. -/
structure CopyState.Journal (s : CopyState σ) (job : CopyJob σ) (table : SymbolTable)
    (types : List TypeId) (named : List (Symbol × Name)) (registered : List Symbol)
    (s' : CopyState σ) : Prop where
  asked : ∃ ts, types.mapM (Substitutor.applyOrKeep job.substitutor)
    (s.program.pool, s.memory) = .ok ts (s'.program.pool, s'.memory)
  drawn : (named.mapM fun d => job.scheme.fresh ((table.name? d.1).getD .empty)) s.program.supply =
    .ok (named.map Prod.snd) s'.program.supply
  kept : ∀ a c, s.map.copyOf? a = some c → s'.map.copyOf? a = some c
  called : ∀ d ∈ named, ∃ base c, table.name? d.1 = some base ∧
    s'.map.copyOf? d.1 = some c ∧ table.name? c = some d.2
  others : ∀ a ∈ s'.map.keys, a ∈ s.map.keys ∨ a ∈ named.map Prod.fst ∨
    ∃ c, s'.map.copyOf? a = some c ∧ table.name? c = table.name? a
  keys : ∀ a, a.kind ≠ .param → (a ∈ s'.map.keys ↔ a ∈ s.map.keys ∨ a ∈ registered)

namespace CopyState

variable {job : CopyJob σ} {table : SymbolTable} {s s₁ s₂ : CopyState σ}
  {types types' : List TypeId} {own own' : List (Symbol × Option Name)}
  {named named' : List (Symbol × Name)} {registered registered' : List Symbol}

/-- What asks for types enters nothing. -/
theorem Asks.enters (h : s.Asks job types s₁) : s.Enters job table types [] s₁ where
  supply := h.supply
  asked := h.asked
  kept _ _ hc := h.map ▸ hc
  copied := nofun
  others _ ha := .inl (h.map ▸ ha)

/-- What is entered in two stretches, one after the other. -/
theorem Enters.trans (h : s.Enters job table types own s₁)
    (h' : s₁.Enters job table types' own' s₂) :
    s.Enters job table (types ++ types') (own ++ own') s₂ where
  supply := h'.supply.trans h.supply
  asked := by
    obtain ⟨ts, hts⟩ := h.asked
    obtain ⟨ts', hts'⟩ := h'.asked
    exact ⟨ts ++ ts', mapM_append_ok hts hts'⟩
  kept a c hc := h'.kept a c (h.kept a c hc)
  copied d hd := by
    rcases List.mem_append.1 hd with hd | hd
    · obtain ⟨c, hc, hname⟩ := h.copied d hd
      exact ⟨c, h'.kept _ _ hc, hname⟩
    · exact h'.copied d hd
  others a ha := by
    rw [List.map_append, List.mem_append]
    rcases h'.others a ha with ha | ha | hparam
    · rcases h.others a ha with ha | ha | ⟨hkind, c, hc, hname⟩
      · exact .inl ha
      · exact .inr (.inl (.inl ha))
      · exact .inr (.inr ⟨hkind, c, h'.kept _ _ hc, hname⟩)
    · exact .inr (.inl (.inr ha))
    · exact .inr (.inr hparam)

/-- The symbols of the states do not matter. -/
theorem Enters.of_withSymbols {symbols : SymbolTable}
    (h : (s.withSymbols symbols).Enters job table types own s₁) :
    s.Enters job table types own s₁ := ⟨h.supply, h.asked, h.kept, h.copied, h.others⟩

/-- The symbols reached do not matter either. -/
theorem Enters.withSymbols (h : s.Enters job table types own s₁) (symbols : SymbolTable) :
    s.Enters job table types own (s₁.withSymbols symbols) :=
  ⟨h.supply, h.asked, h.kept, h.copied, h.others⟩

/-- The journal of nothing is empty. -/
theorem Journal.refl (s : CopyState σ) : s.Journal job table [] [] [] s where
  asked := ⟨[], rfl⟩
  drawn := rfl
  kept _ _ hc := hc
  called := nofun
  others _ ha := .inl ha
  keys _ _ := by simp

/-- Records may be completed. -/
theorem Journal.withSymbols (s : CopyState σ) (symbols : SymbolTable) :
    s.Journal job table [] [] [] (s.withSymbols symbols) :=
  have h : s.Journal job table [] [] [] s := .refl s
  ⟨h.asked, h.drawn, h.kept, h.called, h.others, h.keys⟩

/-- A symbol that has a copy may be called registered. -/
theorem Journal.again {a : Symbol} (ha : a ∈ s.map.keys) : s.Journal job table [] [] [a] s where
  asked := ⟨[], rfl⟩
  drawn := rfl
  kept _ _ hc := hc
  called := nofun
  others _ hb := .inl hb
  keys b _ := by
    rw [List.mem_singleton, or_iff_left_of_imp]
    rintro rfl
    exact ha

/-- One journal after another. -/
theorem Journal.trans (h : s.Journal job table types named registered s₁)
    (h' : s₁.Journal job table types' named' registered' s₂) :
    s.Journal job table (types ++ types') (named ++ named') (registered ++ registered') s₂ where
  asked := by
    obtain ⟨ts, hts⟩ := h.asked
    obtain ⟨ts', hts'⟩ := h'.asked
    exact ⟨ts ++ ts', mapM_append_ok hts hts'⟩
  drawn := by
    rw [List.map_append]
    exact mapM_append_ok h.drawn h'.drawn
  kept a c hc := h'.kept a c (h.kept a c hc)
  called d hd := by
    rcases List.mem_append.1 hd with hd | hd
    · obtain ⟨base, c, hbase, hc, hname⟩ := h.called d hd
      exact ⟨base, c, hbase, h'.kept _ _ hc, hname⟩
    · exact h'.called d hd
  others a ha := by
    rw [List.map_append, List.mem_append]
    rcases h'.others a ha with ha | ha | hparam
    · rcases h.others a ha with ha | ha | ⟨c, hc, hname⟩
      · exact .inl ha
      · exact .inr (.inl (.inl ha))
      · exact .inr (.inr ⟨c, h'.kept _ _ hc, hname⟩)
    · exact .inr (.inl (.inr ha))
    · exact .inr (.inr hparam)
  keys a ha := by
    rw [h'.keys a ha, h.keys a ha, List.mem_append, or_assoc]

/-- Only types were asked for. -/
theorem Asks.journal (h : s.Asks job types s₁) : s.Journal job table types [] [] s₁ where
  asked := h.asked
  drawn := h.supply ▸ rfl
  kept _ _ hc := h.map ▸ hc
  called := nofun
  others _ ha := .inl (h.map ▸ ha)
  keys _ _ := by simp [h.map]

/-- A parameter that keeps its name is not mentioned. -/
theorem Enters.param {p : ParamId}
    (h : s.Enters job table types [(p.symbol, table.name? p.symbol)] s₁) :
    s.Enters job table types [] s₁ where
  supply := h.supply
  asked := h.asked
  kept := h.kept
  copied := nofun
  others a ha := by
    rcases h.others a ha with ha | ha | hparam
    · exact .inl ha
    · obtain rfl := List.mem_singleton.1 ha
      exact .inr (.inr ⟨rfl, h.copied _ (.head _)⟩)
    · exact .inr (.inr hparam)

/-- A symbol has the copy that it was given, and so may be called registered. -/
theorem Enters.keys {a : Symbol} {name : Option Name}
    (h : s.Enters job table types [(a, name)] s₁) (b : Symbol) (hb : b.kind ≠ .param) :
    b ∈ s₁.map.keys ↔ b ∈ s.map.keys ∨ b ∈ [a] := by
  constructor
  · intro hkey
    rcases h.others b hkey with hkey | hown | ⟨hkind, -⟩
    · exact .inl hkey
    · exact .inr hown
    · exact absurd hkind hb
  · rintro (hkey | hown)
    · obtain ⟨c, hc⟩ := CopyMap.mem_keys.1 hkey
      exact CopyMap.mem_keys.2 ⟨c, h.kept b c hc⟩
    · obtain rfl := List.mem_singleton.1 hown
      obtain ⟨c, hc, -⟩ := h.copied _ (.head _)
      exact CopyMap.mem_keys.2 ⟨c, hc⟩

/-- A symbol was copied under the name that was drawn for it before. -/
theorem Enters.journal_drawn {a : Symbol} {base name : Name} {supply : NameSupply}
    (hbase : table.name? a = some base)
    (hfresh : job.scheme.fresh base s.program.supply = .ok name supply)
    (h : ({ s with program := { s.program with supply } } : CopyState σ).Enters job table types
      [(a, some name)] s₁) :
    s.Journal job table types [(a, name)] [a] s₁ where
  asked := h.asked
  drawn := by
    rw [h.supply, List.mapM_cons, hbase]
    exact Ends.bind_of_ok hfresh
  kept := h.kept
  called d hd := by
    obtain rfl := List.mem_singleton.1 hd
    obtain ⟨c, hc, hname⟩ := h.copied _ (.head _)
    exact ⟨base, c, hbase, hc, hname⟩
  others b hb := (h.others b hb).imp_right (.imp_right And.right)
  keys := h.keys

/-- A symbol was copied under the name that it has. -/
theorem Enters.journal_kept {a : Symbol} (h : s.Enters job table types [(a, table.name? a)] s₁) :
    s.Journal job table types [] [a] s₁ where
  asked := h.asked
  drawn := by
    rw [h.supply]
    rfl
  kept := h.kept
  called := nofun
  others b hb := by
    rcases h.others b hb with hb | hb | ⟨-, hparam⟩
    · exact .inl hb
    · obtain rfl := List.mem_singleton.1 hb
      exact .inr (.inr (h.copied _ (.head _)))
    · exact .inr (.inr hparam)
  keys := h.keys

end CopyState

/-- Besides parameters the symbols `seen` have copies, and no others. -/
def CopyState.Knows (s : CopyState σ) (seen : List Symbol) : Prop :=
  ∀ a, a.kind ≠ .param → (a ∈ s.map.keys ↔ a ∈ seen)

/-- The symbols known grow by those registered. -/
theorem CopyState.Knows.journal {job : CopyJob σ} {table : SymbolTable} {s s' : CopyState σ}
    {types : List TypeId} {named : List (Symbol × Name)} {seen registered : List Symbol}
    (h : s.Knows seen) (hj : s.Journal job table types named registered s') :
    s'.Knows (seen ++ registered) := by
  intro a ha
  rw [hj.keys a ha, h a ha, List.mem_append]

/-! ### Declarations -/

namespace CopyJob

open CopyM CopyState Node

variable {job : CopyJob σ} {table : SymbolTable} {rule : SupertypeRule}

/-- To read a record changes nothing, and tells what the record is. -/
theorem record_ends (id : SymbolId k) (s : CopyState σ) :
    Ends (record id) s (fun r s' => s' = s ∧ s.program.symbols.get? id = some r)
      (fun _ _ => True) := by
  cases h : s.program.symbols.get? id with
  | some r => exact Ends.of_eq_ok (record_of_some h) ⟨rfl, rfl⟩
  | none => exact Ends.of_eq_error (record_of_none h) trivial

/-- To draw a name draws it from the supply and changes nothing else. -/
theorem freshName_draws (base : Name) (s : CopyState σ) :
    Ends (job.freshName base) s
      (fun name s' => ∃ supply, job.scheme.fresh base s.program.supply = .ok name supply ∧
        s' = { s with program := { s.program with supply } })
      (fun _ _ => True) := by
  unfold Ends freshName
  cases job.scheme.fresh base s.program.supply with
  | ok name supply => exact ⟨supply, rfl, rfl⟩
  | error e supply => trivial

/-- To make a record adds it to the table and changes nothing else. -/
theorem mint_adds (r : Record k) (s : CopyState σ) :
    Ends (mint r) s
      (fun copy s' => ∃ symbols, s' = s.withSymbols symbols ∧ symbols.Extends s.program.symbols ∧
        symbols.get? copy = some r ∧ ¬ s.program.symbols.Allocated copy.symbol)
      (fun _ _ => True) :=
  ⟨(s.program.symbols.add r).2, rfl, SymbolTable.add_extends _ _, SymbolTable.get?_add_self _ _,
    Nat.lt_irrefl _⟩

/-- A symbol is recorded with the name that its copy has in the end. -/
theorem register_enters (job : CopyJob σ) (table : SymbolTable) [k.Copied]
    (id copy : SymbolId k) (s : CopyState σ) :
    Ends (register id copy) s
      (fun _ s' => s'.program = s.program ∧
        s.Enters job table [] [(id.symbol, table.name? copy.symbol)] s')
      (fun _ _ => True) := by
  unfold Ends register
  cases h : s.map.insert id copy with
  | error e => trivial
  | ok map =>
    have hself : map.copyOf? id.symbol = some copy.symbol := by
      rw [CopyMap.copyOf?_insert h, if_pos rfl]
    refine ⟨rfl, rfl, ⟨[], rfl⟩, fun a c hc => ?_, fun d hd => ?_, fun a ha => ?_⟩
    · show map.copyOf? a = some c
      rw [CopyMap.copyOf?_insert h, if_neg, hc]
      rintro rfl
      rw [CopyMap.copyOf?_of_insert h] at hc
      cases hc
    · obtain rfl := List.mem_singleton.1 hd
      exact ⟨copy.symbol, hself, rfl⟩
    · rcases List.mem_cons.1 ((CopyMap.keys_insert h).mem_iff.1 ha) with rfl | ha
      · exact .inr (.inl (.head _))
      · exact .inl ha

/-- Parameters are asked for one after the other, the types of each in order, and keep their
names. -/
theorem mintParams_enters (table : SymbolTable) (rule : SupertypeRule) (params : List ParamId)
    (owner original : Callable) (s : CopyState σ) :
    Ends (job.mintParams params owner) s
      (fun _ s' => s'.program.symbols.Extends s.program.symbols ∧
        ((∀ (p : ParamId) r, s'.program.symbols.get? p = some r → table.get? p = some r) →
          s.Enters job table
            (params.flatMap fun p => table.exchanged rule p (.param original p)) [] s'))
      (fun _ _ => True) := by
  refine Ends.mapM (I := fun done _ s' => s'.program.symbols.Extends s.program.symbols ∧
    ((∀ (p : ParamId) r, s'.program.symbols.get? p = some r → table.get? p = some r) →
      s.Enters job table
        (done.flatMap fun p => table.exchanged rule p (.param original p)) [] s'))
    params ⟨.refl _, fun _ => (Asks.refl s).enters⟩ ?_
  rintro done p rest - copies s₁ ⟨hext, hdone⟩
  refine (record_ends p s₁).andThen ?_
  rintro r s₁' ⟨rfl, hr⟩
  refine (asks_substitute r.ty s₁' rfl).andThen fun ty s₂ h₂ => ?_
  refine (asks_substituteOption r.varargElement s₂ rfl).andThen fun vararg s₃ h₃ => ?_
  refine (mint_adds _ s₃).andThen ?_
  rintro copy s₄ ⟨symbols, rfl, hadded, hcopy, -⟩
  refine (register_enters job table p copy _).andThen ?_
  rintro - s₅ ⟨hprogram, hregister⟩
  have hsymbols : s₅.program.symbols = symbols := congrArg Program.symbols hprogram
  have hext₅ : s₅.program.symbols.Extends s₁'.program.symbols := by
    rw [hsymbols, ← h₂.symbols, ← h₃.symbols]
    exact hadded
  refine ⟨hext.trans hext₅, fun hparams => ?_⟩
  have hp : table.get? p = some r := hparams p r (hext₅.get? hr)
  have hname : table.name? copy.symbol = table.name? p.symbol := by
    rw [SymbolTable.name?_of_get? (hparams copy _ (hsymbols ▸ hcopy)),
      SymbolTable.name?_of_get? hp]
    rfl
  rw [hname] at hregister
  have hentered : s₁'.Enters job table (table.exchanged rule p (.param original p)) [] s₅ := by
    have h := (h₂.trans h₃).enters.trans hregister.of_withSymbols.param
    rw [List.append_nil] at h
    rw [SymbolTable.exchanged_of_get? hp]
    exact h
  have hbefore := hdone fun p' r' hr' => hparams p' r' (hext₅.get? hr')
  rw [List.flatMap_append, List.flatMap_singleton]
  exact hbefore.trans hentered

/-- A callable is added, completed with its parameters and recorded with the name that it was added
under. -/
theorem declare_enters (table : SymbolTable) (rule : SupertypeRule) [k.Copied] (id : SymbolId k)
    (r : Record k) (callable : SymbolId k → Callable)
    (hcallable : ∀ copy, (callable copy).symbol = copy.symbol) (params : List ParamId)
    (original : Callable) (s : CopyState σ) :
    Ends
      (do
        let copy ← mint r
        setParamList (callable copy) (← job.mintParams params (callable copy))
        register id copy) s
      (fun _ s' => s'.program.symbols.Extends s.program.symbols ∧
        (table.Retains s'.program.symbols →
          s.Enters job table
            (params.flatMap fun p => table.exchanged rule p (.param original p))
            [(id.symbol, Record.name? k r)] s'))
      (fun _ _ => True) := by
  refine (mint_adds r s).andThen ?_
  rintro copy s₁ ⟨symbols, rfl, hadded, hcopy, hnew⟩
  refine (mintParams_enters table rule params (callable copy) original _).andThen ?_
  rintro copies s₂ ⟨hext₂, hparams⟩
  refine Ends.bind (Ends.of_eq_ok (show setParamList (callable copy) copies s₂ = .ok ()
    (s₂.withSymbols (s₂.program.symbols.setParamList copies (callable copy))) from rfl) ?_)
  refine (register_enters job table id copy _).weaken ?_
  rintro - s₃ ⟨hprogram, hregister⟩
  have hsymbols : s₃.program.symbols =
      s₂.program.symbols.setParamList copies (callable copy) := congrArg Program.symbols hprogram
  refine ⟨?_, fun hretains => ?_⟩
  · rw [hsymbols]
    exact (hadded.trans hext₂).setParamList (hcallable copy ▸ hnew) copies
  · have hname : table.name? copy.symbol = Record.name? k r := by
      have hthere : s₃.program.symbols.Allocated copy.symbol := by
        rw [hsymbols, SymbolTable.allocated_setParamList]
        exact SymbolTable.allocated_iff.2 ⟨r, hext₂.get? hcopy⟩
      obtain ⟨r₃, hr₃⟩ := SymbolTable.allocated_iff.1 hthere
      rw [hretains.name? hr₃, ← SymbolTable.name?_of_get? hr₃, hsymbols,
        SymbolTable.name?_setParamList, SymbolTable.name?_of_get? (hext₂.get? hcopy)]
    rw [hname] at hregister
    have hlisted := (hparams fun p r' hr' => hretains.get? (by decide) (by
      rw [hsymbols, SymbolTable.get?_setParamList]
      exact hr')).of_withSymbols
    have h := (hlisted.withSymbols _).trans hregister
    rwa [List.append_nil] at h

/-- Run from any state, in which the symbols `seen` have copies, the action asks for the types that
this gives, draws names for the symbols `numbered` and gives copies to the symbols `registered`, if
the records are read in a later table. -/
def Journals (job : CopyJob σ) (table : SymbolTable) (m : CopyM σ α)
    (types : List Symbol → List TypeId) (numbered registered : List Symbol) : Prop :=
  ∀ s, Ends m s
    (fun _ s' => s'.program.symbols.Retains s.program.symbols ∧
      (table.Retains s'.program.symbols → ∀ seen, s.Knows seen →
        ∃ named, named.map Prod.fst = numbered ∧
          s.Journal job table (types seen) named registered s'))
    (fun _ _ => True)

/-- The journal of returning a value is empty. -/
theorem journals_pure (a : α) : job.Journals table (pure a) (fun _ => []) [] [] := fun s =>
  ⟨.refl _, fun _ _ _ => ⟨[], rfl, .refl s⟩⟩

/-- The journal of two actions, the second after the symbols of the first. -/
theorem Journals.bind {m : CopyM σ α} {f : α → CopyM σ β} {types types' : List Symbol → List TypeId}
    {numbered numbered' registered registered' : List Symbol}
    (hm : job.Journals table m types numbered registered)
    (hf : ∀ a, job.Journals table (f a) types' numbered' registered') :
    job.Journals table (m >>= f) (fun seen => types seen ++ types' (seen ++ registered))
      (numbered ++ numbered') (registered ++ registered') := by
  intro s
  refine (hm s).andThen fun a s₁ h₁ => ?_
  refine (hf a s₁).weaken fun b s₂ h₂ => ?_
  refine ⟨h₁.1.trans h₂.1, fun hretains seen hseen => ?_⟩
  obtain ⟨named, rfl, hj⟩ := h₁.2 (h₂.1.trans hretains) seen hseen
  obtain ⟨named', rfl, hj'⟩ := h₂.2 hretains _ (hseen.journal hj)
  exact ⟨named ++ named', List.map_append, hj.trans hj'⟩

/-- The journal of the copy of a function. -/
theorem journals_mintFunction (f : FunctionId) :
    job.Journals table (job.mintFunction f)
      (fun _ => table.exchanged rule f .fn ++ table.exchangedParams rule (.fn f))
      [f.symbol] [f.symbol] := by
  intro s
  refine (record_ends f s).andThen ?_
  rintro r s' ⟨rfl, hr⟩
  dsimp only
  split
  · trivial
  · refine (freshName_draws r.name s').andThen ?_
    rintro name s₁ ⟨supply, hfresh, rfl⟩
    refine (asks_substitute r.returnType _ rfl).andThen fun returnType s₂ h₂ => ?_
    refine (asks_substituteOption r.extensionReceiver s₂ rfl).andThen
      fun extensionReceiver s₃ h₃ => ?_
    refine (declare_enters table rule f (_ : FunctionRecord) .fn
      (fun _ => rfl) r.params (.fn f) s₃).weaken ?_
    rintro - s₄ ⟨hext, hdeclare⟩
    rw [h₃.symbols, h₂.symbols] at hext
    refine ⟨hext.retains, fun hretains seen _ => ?_⟩
    have hf : table.get? f = some r := hretains.get? (by decide) (hext.get? hr)
    refine ⟨[(f.symbol, name)], rfl, Enters.journal_drawn (SymbolTable.name?_of_get? hf) hfresh ?_⟩
    rw [SymbolTable.exchanged_of_get? hf, SymbolTable.exchangedParams, SymbolTable.paramsOf_fn hf]
    exact (h₂.trans h₃).enters.trans (hdeclare hretains)

/-- The journal of the copy of a constructor. -/
theorem journals_mintConstructor (c : ConstructorId) :
    job.Journals table (job.mintConstructor c)
      (fun _ => table.exchanged rule c .ctor ++ table.exchangedParams rule (.ctor c))
      [] [c.symbol] := by
  intro s
  refine (record_ends c s).andThen ?_
  rintro r s' ⟨rfl, hr⟩
  refine Ends.bind (Ends.of_eq_ok (show copies s' = .ok s'.map s' from rfl) ?_)
  split
  · dsimp only
    split
    · trivial
    · refine (asks_substitute r.returnType s' rfl).andThen fun returnType s₁ h₁ => ?_
      refine (asks_substituteOption r.dispatchReceiver s₁ rfl).andThen
        fun dispatchReceiver s₂ h₂ => ?_
      refine (declare_enters table rule c (_ : ConstructorRecord) .ctor
        (fun _ => rfl) r.params (.ctor c) s₂).weaken ?_
      rintro - s₃ ⟨hext, hdeclare⟩
      rw [h₂.symbols, h₁.symbols] at hext
      refine ⟨hext.retains, fun hretains seen _ => ?_⟩
      have hc : table.get? c = some r := hretains.get? (by decide) (hext.get? hr)
      refine ⟨[], rfl, Enters.journal_kept ?_⟩
      rw [SymbolTable.exchanged_of_get? hc, SymbolTable.exchangedParams,
        SymbolTable.paramsOf_ctor hc, SymbolTable.name?_of_get? hc]
      exact (h₁.trans h₂).enters.trans (hdeclare hretains)
  · trivial

/-- The journal of the copy of an operator at a call. -/
theorem journals_mintInvoke (table : SymbolTable) (rule : SupertypeRule) (f : FunctionId) :
    job.Journals table (job.mintInvoke f)
      (fun _ => table.exchanged rule f .invoke ++ table.exchangedParams rule (.fn f))
      [] [f.symbol] := by
  intro s
  refine (record_ends f s).andThen ?_
  rintro r s' ⟨rfl, hr⟩
  refine (asks_substitute r.returnType s' rfl).andThen fun returnType s₁ h₁ => ?_
  refine (declare_enters table rule f (_ : FunctionRecord) .fn
    (fun _ => rfl) r.params (.fn f) s₁).weaken ?_
  rintro - s₂ ⟨hext, hdeclare⟩
  rw [h₁.symbols] at hext
  refine ⟨hext.retains, fun hretains seen _ => ?_⟩
  have hf : table.get? f = some r := hretains.get? (by decide) (hext.get? hr)
  refine ⟨[], rfl, Enters.journal_kept ?_⟩
  rw [SymbolTable.exchanged_of_get? hf, SymbolTable.exchangedParams, SymbolTable.paramsOf_fn hf,
    SymbolTable.name?_of_get? hf]
  exact h₁.enters.trans (hdeclare hretains)

/-- A record is added under a name that was drawn for it, and recorded. -/
theorem mint_register_enters (job : CopyJob σ) (table : SymbolTable) [k.Copied]
    (id : SymbolId k) (r : Record k) (s : CopyState σ) :
    Ends (mint r) s
      (fun copy s₁ => Ends (register id copy) s₁
        (fun _ s' => s'.program.symbols.Extends s.program.symbols ∧
          (table.Retains s'.program.symbols →
            s.Enters job table [] [(id.symbol, Record.name? k r)] s'))
        (fun _ _ => True))
      (fun _ _ => True) := by
  refine (mint_adds r s).weaken ?_
  rintro copy s₁ ⟨symbols, rfl, hadded, hcopy, -⟩
  refine (register_enters job table id copy _).weaken ?_
  rintro - s₂ ⟨hprogram, hregister⟩
  have hsymbols : s₂.program.symbols = symbols := congrArg Program.symbols hprogram
  refine ⟨hsymbols ▸ hadded, fun hretains => ?_⟩
  rw [hretains.name? (hsymbols ▸ hcopy)] at hregister
  exact hregister.of_withSymbols

/-- The journal of the copy of a variable. -/
theorem journals_mintVariable (v : VariableId) :
    job.Journals table (job.mintVariable v) (fun _ => table.exchanged rule v .var)
      [v.symbol] [v.symbol] := by
  intro s
  refine (record_ends v s).andThen ?_
  rintro r s' ⟨rfl, hr⟩
  refine (freshName_draws r.name s').andThen ?_
  rintro name s₁ ⟨supply, hfresh, rfl⟩
  refine (asks_substitute r.ty _ rfl).andThen fun ty s₂ h₂ => ?_
  refine (mint_register_enters job table v (_ : VariableRecord)
    s₂).andThen fun copy s₃ h₃ => ?_
  refine h₃.weaken ?_
  rintro - s₄ ⟨hext, hentered⟩
  rw [h₂.symbols] at hext
  refine ⟨hext.retains, fun hretains seen _ => ?_⟩
  have hv : table.get? v = some r := hretains.get? (by decide) (hext.get? hr)
  refine ⟨[(v.symbol, name)], rfl, Enters.journal_drawn (SymbolTable.name?_of_get? hv) hfresh ?_⟩
  rw [SymbolTable.exchanged_of_get? hv]
  have h := h₂.enters.trans (hentered hretains)
  rwa [List.append_nil] at h

/-! ### Classes -/

/-- The supertypes of a class are asked for. -/
theorem asks_copySupertypes (r : ClassRecord) {map : CopyMap} :
    job.Asks map (job.copySupertypes r) (CopyRole.cls.types job.supertypes r) := by
  unfold copySupertypes CopyRole.types
  cases job.supertypes with
  | substitute =>
    have h : job.Asks map (r.supertypes.mapM job.substitute) (r.supertypes.flatMap fun t => [t]) :=
      Asks.mapM r.supertypes fun t _ => asks_substitute t
    rwa [List.flatMap_singleton'] at h
  | top => exact asks_pure _

/-- The journal of the copy of a class when it is met. -/
theorem journals_openClass (cls : ClassId) :
    job.Journals table (job.openClass cls) (fun _ => table.exchanged job.supertypes cls .cls)
      [cls.symbol] [cls.symbol] := by
  intro s
  rw [openClass_eq]
  refine (record_ends cls s).andThen ?_
  rintro r s' ⟨rfl, hr⟩
  refine (asks_copySupertypes r s' rfl).andThen fun supertypes s₁ h₁ => ?_
  refine (freshName_draws r.name s₁).andThen ?_
  rintro name s₂ ⟨supply, hfresh, rfl⟩
  refine (mint_register_enters job table cls (_ : ClassRecord)
    _).andThen fun copy s₃ h₃ => ?_
  refine h₃.andThen ?_
  rintro - s₄ ⟨hext, hentered⟩
  have hext' : s₄.program.symbols.Extends s'.program.symbols := h₁.symbols ▸ hext
  refine ⟨hext'.retains, fun hretains seen _ => ?_⟩
  have hthere := hext'.get? hr
  refine ⟨[(cls.symbol, name)], rfl, ?_⟩
  rw [hretains.exchanged hthere]
  have h := h₁.journal.trans
    (Enters.journal_drawn (hretains.name? hthere) hfresh (hentered hretains))
  rwa [List.append_nil] at h

/-- Nothing is asked for when a class is closed. -/
theorem journals_closeClass (cls : ClassId) (r : ClassRecord) (copy : ClassId) :
    job.Journals table (closeClass cls r copy) (fun _ => []) [] [] := by
  intro s
  refine (closeClass_ends cls r copy s).imp ?_ fun _ _ _ => trivial
  rintro - s' ⟨-, rfl⟩
  exact ⟨SymbolTable.retains_modify _ copy fun _ => rfl, fun _ _ _ => ⟨[], rfl, .withSymbols s _⟩⟩

/-! ### The first pass -/

/-- A call asks for the types of its callee if this is an `invoke` operator that has no copy yet. -/
theorem journals_call {span origin ty callee typeArgs superClass dispatch extension args} {n : Node}
    (hn : n = .call span origin ty (.fn callee) typeArgs superClass dispatch extension args) :
    job.Journals table (job.mintOwn n) (fun seen => n.typesMet table rule seen) []
      (n.registered table) := by
  intro s
  subst hn
  refine (record_ends callee s).andThen ?_
  rintro r s' ⟨rfl, hr⟩
  refine Ends.bind (Ends.of_eq_ok (show copies s' = .ok s'.map s' from rfl) ?_)
  have hisInvoke : table.Retains s'.program.symbols →
      table.isInvoke callee = r.isTypeInvoke := fun hretains =>
    SymbolTable.isInvoke_of_get? (hretains.get? (by decide) hr)
  have hkey : ∀ seen, s'.Knows seen → (s'.map.contains callee = true ↔
      SymbolId.symbol callee ∈ seen) := fun seen hseen =>
    CopyMap.contains_iff.trans (hseen callee.symbol nofun)
  dsimp only [typesMet, registered, invoked?, declared?]
  split
  · rename_i hnew
    obtain ⟨hinvoke, hnew⟩ := Bool.and_eq_true_iff.1 hnew
    refine (journals_mintInvoke table rule callee s').weaken ?_
    rintro - s₁ ⟨hkept, hjournal⟩
    refine ⟨hkept, fun hretains seen hseen => ?_⟩
    have hyes := (hisInvoke (hkept.trans hretains)).trans hinvoke
    have hnot : SymbolId.symbol callee ∉ seen := by
      rw [← hkey seen hseen]
      simpa using hnew
    rw [if_pos ⟨hyes, hnot⟩, if_pos hyes]
    exact hjournal hretains seen hseen
  · rename_i hold
    refine ⟨.refl _, fun hretains seen hseen => ⟨[], rfl, ?_⟩⟩
    rw [hisInvoke hretains]
    cases hinvoke : r.isTypeInvoke with
    | false => simpa using Journal.refl s'
    | true =>
      have hcopied : s'.map.contains callee = true := by simpa [hinvoke] using hold
      rw [if_neg fun h => h.2 ((hkey seen hseen).1 hcopied)]
      exact .again (CopyMap.contains_iff.1 hcopied)

/-- A node other than a class makes its own entry. -/
theorem journals_mintOwn (n : Node)
    (hclass : ∀ span origin symbol members, n ≠ .classDecl span origin symbol members) :
    job.Journals table (job.mintOwn n) (fun seen => n.typesMet table rule seen)
      n.numbered?.toList (n.registered table) := by
  cases n with
  | classDecl => exact absurd rfl (hclass _ _ _ _)
  | functionDecl span origin f => exact journals_mintFunction f
  | constructorDecl span origin c => exact journals_mintConstructor c
  | variableDecl span origin v => exact journals_mintVariable v
  | call span origin ty callee =>
    cases callee with
    | fn f => exact journals_call rfl
    | ctor c => exact journals_pure ()
  | callableRef | returnFrom | getValue | setVariable | block | const | «when» | whileLoop |
    typeOp => exact journals_pure ()

/-- Trees are met one after the other. -/
theorem journals_forM {ns : List Node}
    (h : ∀ n ∈ ns, job.Journals table (job.copyDeclarations n)
      (fun seen => typesMetAll table job.supertypes seen (preorder [n]))
      ((preorder [n]).filterMap numbered?) ((preorder [n]).flatMap (registered table))) :
    job.Journals table (forM ns job.copyDeclarations)
      (fun seen => typesMetAll table job.supertypes seen (preorder ns))
      ((preorder ns).filterMap numbered?) ((preorder ns).flatMap (registered table)) := by
  induction ns with
  | nil => exact journals_pure ()
  | cons n ns ih =>
    have hn := (h n (.head _)).bind fun _ => ih fun m hm => h m (.tail _ hm)
    rw [List.forM_cons, ← List.singleton_append, preorder_append, List.filterMap_append,
      List.flatMap_append]
    simp only [typesMetAll_append]
    exact hn

/-- **The first pass makes its entries in preorder.** -/
theorem journals_copyDeclarations (n : Node) :
    job.Journals table (job.copyDeclarations n)
      (fun seen => typesMetAll table job.supertypes seen (preorder [n]))
      ((preorder [n]).filterMap numbered?) ((preorder [n]).flatMap (registered table)) := by
  induction n using Node.induction_children with
  | step n ih =>
    have below := journals_forM ih
    have hself : preorder [n] = n :: preorder n.children := by
      rw [preorder_singleton, preorder_children]
    have hnumbered : (n :: preorder n.children).filterMap numbered? =
        n.numbered?.toList ++ (preorder n.children).filterMap numbered? := by
      cases hn : n.numbered? <;> simp [hn]
    rw [copyDeclarations_eq, hself, hnumbered, List.flatMap_cons]
    split
    · rename_i span origin cls members
      have hclosed : ∀ opened : ClassRecord × ClassId, job.Journals table
          (do
            forM members job.copyDeclarations
            closeClass cls opened.1 opened.2) _ _ _ := fun opened =>
        below.bind fun _ => journals_closeClass cls opened.1 opened.2
      have h := (journals_openClass cls).bind hclosed
      simp only [List.append_nil] at h
      exact h
    · rename_i hclass
      exact (journals_mintOwn n fun _ _ _ _ => hclass _ _ _ _).bind fun _ => below

end CopyJob

namespace Copier

open CopyJob CopyState Node

/-- A copy that succeeds leaves every record as it was. -/
theorem copy_extends {copier : Copier σ} {root : Node} {inlined : String}
    {program program' : Program} {memory memory' : σ} {copied : Copied}
    (hcopy : copier.copy root inlined (program, memory) = .ok copied (program', memory')) :
    program'.symbols.Extends program.symbols := by
  have hsteps := ((copier.actions_steps root inlined _).ok_of_eq (actions_of_copy hcopy)).2
  exact (CopyState.Tracks.steps hsteps (.start _ rfl)).extends_

/-- **The journal of a copy.**  A copy that succeeds first makes an entry for every node below the
root, in preorder, and then asks for the types of these nodes, in postorder. -/
theorem copy_journal {copier : Copier σ} {root : Node} {inlined : String}
    {program program' : Program} {memory memory' : σ} {copied : Copied}
    (hcopy : copier.copy root inlined (program, memory) = .ok copied (program', memory')) :
    ∃ named s₁, named.map Prod.fst = root.descendants.filterMap numbered? ∧
      Journal { program, memory } (copier.job program inlined) program'.symbols
        (typesMetAll program'.symbols copier.options.supertypes [] root.descendants) named
        (root.descendants.flatMap (registered program'.symbols)) s₁ ∧
      s₁.Asks (copier.job program inlined)
        (root.postorderBelow.flatMap (substituted copied.map))
        { program := program', memory := memory', map := copied.map } := by
  have hends : Ends (copier.actions root inlined) { program, memory }
      (fun _ s' => program'.symbols.Retains s'.program.symbols → ∃ named s₁,
        named.map Prod.fst = root.descendants.filterMap numbered? ∧
        Journal { program, memory } (copier.job program inlined) program'.symbols
          (typesMetAll program'.symbols copier.options.supertypes [] root.descendants) named
          (root.descendants.flatMap (registered program'.symbols)) s₁ ∧
        s₁.Asks (copier.job program inlined)
          (root.postorderBelow.flatMap (substituted s'.map)) s')
      (fun _ _ => True) := by
    refine copier.actions_ends (fun _ => ?_) fun _ => trivial
    have hfirst : (copier.job program inlined).Journals program'.symbols
        (forM root.children (copier.job program inlined).copyDeclarations) _ _ _ :=
      journals_forM fun n _ => journals_copyDeclarations n
    rw [preorder_children] at hfirst
    refine (hfirst _).andThen ?_
    rintro - s₁ ⟨-, hjournal⟩
    refine (copier.asks_secondPass root s₁ rfl).weaken fun _ s₂ hasks hretains => ?_
    rw [hasks.symbols] at hretains
    obtain ⟨named, hnamed, hj⟩ := hjournal hretains [] fun a _ =>
      iff_of_false (CopyMap.not_mem_keys_empty a) nofun
    exact ⟨named, s₁, hnamed, hj, hasks.map ▸ hasks⟩
  exact hends.ok_of_eq (actions_of_copy hcopy) (.refl _)

end Copier

end Graft
