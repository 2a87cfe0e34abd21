/-
# Copying elsewhere, and copying again

Whether a tree can be copied, what a copy gives copies to and in which roles depends on the
records of the symbols that the tree mentions.  So it is the same in every larger program
(`Node.Lawful.extends_`, `Node.Plays.extends_`).  The copy of a tree mentions copies, and
their records say of each other what the records that were copied say
(`CopyMap.Carries`, `Copier.copy_carries`).  So the copy of a tree can be copied again
(`CopyMap.Carries.lawful`): with it, the images of what was copied with the tree are copied
(`CopyMap.Carries.mem_bringsAll`), in the same roles (`CopyMap.Carries.plays`).
-/

import Graft.Proofs.Copy.Transcript

namespace Graft

/-! ### Larger programs -/

namespace SymbolTable

variable {table later : SymbolTable}

/-- The records there were are read the same in a larger table. -/
theorem Extends.get?_eq (h : later.Extends table) {k : Kind} {id : SymbolId k}
    (hid : table.Allocated id.symbol) : later.get? id = table.get? id := by
  obtain ⟨r, hr⟩ := allocated_iff.1 hid
  rw [hr, h.get? hr]

/-- A callable has the same value parameters in a larger table. -/
theorem Extends.paramsOf (h : later.Extends table) {callable : Callable}
    (hc : table.Allocated callable.symbol) : later.paramsOf callable = table.paramsOf callable := by
  rw [SymbolTable.paramsOf, h.paramList hc, SymbolTable.paramsOf]

/-- A callable comes with the same symbols in a larger table. -/
theorem Extends.withParams (h : later.Extends table) {callable : Callable}
    (hc : table.Allocated callable.symbol) :
    later.withParams callable = table.withParams callable := by
  rw [SymbolTable.withParams, h.paramsOf hc, SymbolTable.withParams]

/-- A callable has the same type parameters in a larger table. -/
theorem Extends.typeParamsOf (h : later.Extends table) {callable : Callable}
    (hc : table.Allocated callable.symbol) :
    later.typeParamsOf callable = table.typeParamsOf callable := by
  cases callable with
  | fn id | ctor id => rw [SymbolTable.typeParamsOf, h.get?_eq hc, SymbolTable.typeParamsOf]

/-- An operator stays one in a larger table, and nothing else becomes one. -/
theorem Extends.isInvoke (h : later.Extends table) {f : FunctionId}
    (hf : table.Allocated f.symbol) : later.isInvoke f = table.isInvoke f := by
  rw [SymbolTable.isInvoke, h.get?_eq hf, SymbolTable.isInvoke]

end SymbolTable

namespace Node

variable {program later : Program} {n : Node} {met ns : List Node}

/-- A node brings the same symbols in a larger table. -/
theorem brings_extends (h : later.symbols.Extends program.symbols) (hn : n.KnownTo program) :
    n.brings later.symbols = n.brings program.symbols := by
  cases n with
  | functionDecl | constructorDecl => exact h.withParams (hn.mention (.head _))
  | call span origin ty callee =>
    cases callee with
    | ctor callee => rfl
    | fn callee =>
      have hcallee : program.symbols.Allocated (Callable.fn callee).symbol := hn.mention (.head _)
      rw [brings, brings, h.isInvoke hcallee, h.withParams hcallee]
  | _ => rfl

/-- Nodes bring the same symbols in a larger table. -/
theorem bringsAll_extends (h : later.symbols.Extends program.symbols)
    (hmet : ∀ n ∈ met, n.KnownTo program) :
    bringsAll later.symbols met = bringsAll program.symbols met :=
  List.flatMap_congr fun n hn => brings_extends h (hmet n hn)

/-- The conditions on entering a node are the same in a larger table. -/
theorem admits_extends (h : later.symbols.Extends program.symbols)
    (hmet : ∀ n ∈ met, n.KnownTo program) (hn : n.KnownTo program) :
    Admits later.symbols met n ↔ Admits program.symbols met n := by
  have hunmet : ∀ keys, Unmet later.symbols met keys ↔ Unmet program.symbols met keys :=
    fun keys => by rw [Unmet, bringsAll_extends h hmet, Unmet]
  cases n with
  | functionDecl span origin symbol body =>
    have hsymbol : program.symbols.Allocated (Callable.fn symbol).symbol := hn.mention (.head _)
    rw [Admits, Admits, hunmet, h.typeParamsOf hsymbol, h.withParams hsymbol]
  | constructorDecl span origin symbol body =>
    have hsymbol : program.symbols.Allocated (Callable.ctor symbol).symbol := hn.mention (.head _)
    rw [Admits, Admits, hunmet, h.typeParamsOf hsymbol, h.withParams hsymbol, h.get?_eq hsymbol,
      bringsAll_extends h hmet]
  | call span origin ty callee =>
    cases callee with
    | ctor callee => exact Iff.rfl
    | fn callee =>
      have hcallee : program.symbols.Allocated (Callable.fn callee).symbol := hn.mention (.head _)
      rw [Admits, Admits, hunmet, h.isInvoke hcallee, h.withParams hcallee,
        bringsAll_extends h hmet]
  | classDecl | variableDecl => exact hunmet _
  | _ => exact Iff.rfl

/-- The conditions on leaving a node are the same in a larger table. -/
theorem closes_extends (h : later.symbols.Extends program.symbols)
    (hmet : ∀ n ∈ met, n.KnownTo program) (hn : n.KnownTo program) :
    Closes later.symbols met n ↔ Closes program.symbols met n := by
  cases n with
  | classDecl span origin symbol members =>
    rw [Closes, Closes, h.get?_eq (hn.mention (.head _)), bringsAll_extends h hmet]
  | _ => exact Iff.rfl

/-- **What can be copied can be copied in every larger program.** -/
theorem Lawful.extends_ (hlawful : Lawful program.symbols [] ns)
    (h : later.symbols.Extends program.symbols)
    (hns : ∀ n ∈ preorder ns, n.KnownTo program) : Lawful later.symbols [] ns := by
  intro a n b hsplit
  obtain ⟨hadmits, hcloses⟩ := hlawful a n b hsplit
  rw [hsplit] at hns
  have hn := hns n (List.mem_append_right _ (.head _))
  refine ⟨(admits_extends h (fun m hm => hns m (List.mem_append_left _ hm)) hn).2 hadmits,
    (closes_extends h (fun m hm => hns m ?_) hn).2 hcloses⟩
  rcases List.mem_append.1 hm with hm | hm
  · exact List.mem_append_left _ hm
  · refine List.mem_append_right _ ?_
    rw [← List.cons_append]
    exact List.mem_append_left _ hm

/-- A node calls the same operator in a larger table. -/
theorem invoked?_extends (h : later.symbols.Extends program.symbols) (hn : n.KnownTo program) :
    n.invoked? later.symbols = n.invoked? program.symbols := by
  cases n with
  | call span origin ty callee =>
    cases callee with
    | ctor callee => rfl
    | fn callee => rw [invoked?, invoked?, h.isInvoke (hn.mention (.head _))]
  | _ => rfl

/-- **Everything plays the same role in every larger program.** -/
theorem Plays.extends_ {root : Node} {k : Kind} {id : SymbolId k} {role : CopyRole k}
    (hplays : root.Plays program.symbols id role) (h : later.symbols.Extends program.symbols)
    (hclosed : program.Closed) (hroot : root.ClosedIn program) :
    root.Plays later.symbols id role := by
  have hknown : ∀ n ∈ root.descendants, n.KnownTo program := fun n hn => hroot.below hn
  cases hplays with
  | declared hid hrole => exact .declared hid hrole
  | invoke hid hnot =>
    refine .invoke ?_ hnot
    obtain ⟨n, hn, hf⟩ := List.mem_filterMap.1 hid
    exact List.mem_filterMap.2 ⟨n, hn, (invoked?_extends h (hknown n hn)).trans hf⟩
  | param hcallable hid =>
    obtain ⟨n, hn, hb⟩ := List.mem_flatMap.1 hcallable
    refine .param ?_ ?_
    · rwa [bringsAll_extends h hknown]
    · rwa [h.paramsOf (n.brings_allocated hclosed (hknown n hn) hb)]

/-! ### Nodes that are rebuilt -/

variable {table : SymbolTable}

/-- What a node brings does not depend on its children. -/
theorem brings_withChildren (n : Node) (cs : List Node) :
    (n.withChildren cs).brings table = n.brings table := by
  cases n with
  | call span origin ty callee => cases callee <;> rfl
  | _ => rfl

/-- The conditions on entering a node do not depend on its children. -/
theorem admits_withChildren (n : Node) (cs : List Node) :
    Admits table met (n.withChildren cs) ↔ Admits table met n := by
  cases n with
  | call span origin ty callee => cases callee <;> exact Iff.rfl
  | _ => exact Iff.rfl

/-- The conditions on leaving a node do not depend on its children. -/
theorem closes_withChildren (n : Node) (cs : List Node) :
    Closes table met (n.withChildren cs) ↔ Closes table met n := by
  cases n <;> exact Iff.rfl

/-- What a node calls as an operator does not depend on its children. -/
theorem invoked?_withChildren (n : Node) (cs : List Node) :
    (n.withChildren cs).invoked? table = n.invoked? table := by
  cases n with
  | call span origin ty callee => cases callee <;> rfl
  | _ => rfl

/-- A parameter that comes with some nodes comes with a callable that does. -/
theorem exists_callable_of_param {p : ParamId} (h : p ∈ paramsFor table met) :
    ∃ c : Callable, c.symbol ∈ bringsAll table met ∧ p ∈ table.paramsOf c := by
  rcases mem_paramsFor.1 h with ⟨n, hn, hp⟩ | ⟨f, hf, hp⟩
  · obtain ⟨c, hc, hp⟩ := mem_declaredParams.1 hp
    exact ⟨c, List.mem_flatMap.2 ⟨n, hn, mem_brings.2 (.inl (declared?_of_callable? hc))⟩, hp⟩
  · exact ⟨.fn f, mem_bringsAll.2 (.inr (.inl ⟨f, hf, rfl⟩)), hp⟩

/-- A callable that comes with some nodes is declared or invoked. -/
theorem callable_mem_bringsAll {c : Callable} :
    c.symbol ∈ bringsAll table met ↔
      c.symbol ∈ declaredBy met ∨ ∃ f ∈ invokedBy table met, c = .fn f := by
  rw [mem_bringsAll]
  constructor
  · rintro (h | ⟨f, hf, h⟩ | ⟨p, -, h⟩)
    · exact .inl h
    · exact .inr ⟨f, hf, Callable.symbol_inj.1 h⟩
    · exact absurd h (c.symbol_ne (by decide) (by decide) p)
  · rintro (h | ⟨f, hf, rfl⟩)
    · exact .inl h
    · exact .inr (.inl ⟨f, hf, rfl⟩)

end Node

/-! ### Copies -/

namespace CopyMap

variable {map : CopyMap}

/-- The image of a callable's symbol is that of the callable that replaces it. -/
theorem image_redirectCallable (c : Callable) :
    map.image c.symbol = (map.redirectCallable c).symbol := by
  cases c with
  | fn id | ctor id => exact map.image_symbol id

/-- A callable without a copy stands for itself. -/
theorem getD_callable? (c : Callable) : (map.callable? c).getD c = map.redirectCallable c := by
  cases c with
  | fn id | ctor id =>
    rw [callable?, redirectCallable, redirect]
    cases map.get? id <;> rfl

/-- What the records of the copies in the table `after` say of each other is what the records
that were copied, in the table `before`, say, as far as the nodes `ns` are concerned. -/
structure Carries (map : CopyMap) (before after : SymbolTable) (ns : List Node) : Prop where
  injective : ∀ a b, before.Allocated a → before.Allocated b → map.image a = map.image b → a = b
  params : ∀ c : Callable, c.symbol ∈ Node.bringsAll before ns →
    after.paramsOf (map.redirectCallable c) = (before.paramsOf c).map map.redirect
  /-- No callable that is declared is generic. -/
  typeParams : ∀ c : Callable, c.symbol ∈ Node.declaredBy ns →
    after.typeParamsOf (map.redirectCallable c) = []
  constructors : ∀ (c : ConstructorId) (r r' : ConstructorRecord),
    c.symbol ∈ Node.declaredBy ns → before.get? c = some r →
      after.get? (map.redirect c) = some r' → r'.cls = map.redirect r.cls
  classes : ∀ (cls : ClassId) (r r' : ClassRecord),
    cls.symbol ∈ Node.declaredBy ns → before.get? cls = some r →
      after.get? (map.redirect cls) = some r' →
        r'.constructors = r.constructors.map map.redirect ∧
          r'.primary = r.primary.map map.redirect
  isInvoke : ∀ f : FunctionId, before.Allocated f.symbol →
    after.isInvoke (map.redirect f) = true → before.isInvoke f = true
  /-- An `invoke` operator that is called stays one, unless it is declared as well. -/
  invoked : ∀ f ∈ Node.invokedBy before ns, f.symbol ∉ Node.declaredBy ns →
    after.isInvoke (map.redirect f) = true

/-- The copies of declarations declare the images. -/
theorem declaredBy_transform (map : CopyMap) (τ : TypeId → TypeId) (met : List Node) :
    Node.declaredBy (met.map (Node.transform (Node.relabel map τ))) =
      (Node.declaredBy met).map map.image := by
  rw [Node.declaredBy, List.filterMap_map, Node.declaredBy, List.map_filterMap]
  refine List.filterMap_congr fun n _ => ?_
  rw [Function.comp_apply, Node.transform_eq, Node.declared?_withChildren, Node.declared?_relabel]

namespace Carries

variable {program : Program} {after : SymbolTable} {ns met : List Node} {n : Node}
  {τ : TypeId → TypeId}

open Node

/-- A copied callable comes with the copies of what the original comes with. -/
theorem withParams (h : map.Carries program.symbols after ns) {c : Callable}
    (hc : c.symbol ∈ bringsAll program.symbols ns) :
    after.withParams (map.redirectCallable c) =
      (program.symbols.withParams c).map map.image := by
  have hparams : ∀ params : List ParamId,
      (params.map map.redirect).map SymbolId.symbol = (params.map SymbolId.symbol).map map.image :=
    fun params => by simp only [List.map_map, Function.comp_def, map.image_symbol]
  rw [SymbolTable.withParams, h.params c hc, hparams, SymbolTable.withParams, List.map_append,
    List.map_singleton, image_redirectCallable]

/-- A relabelled node brings nothing but images of what the node brings. -/
theorem brings_subset (h : map.Carries program.symbols after ns) (hn : n ∈ ns)
    (hknown : n.KnownTo program) :
    brings after (n.relabel map τ) ⊆ (brings program.symbols n).map map.image := by
  have hbrings : ∀ c : Callable, c.symbol ∈ brings program.symbols n →
      after.withParams (map.redirectCallable c) ⊆ (program.symbols.withParams c).map map.image := by
    intro c hc
    rw [h.withParams (List.mem_flatMap.2 ⟨n, hn, hc⟩)]
    exact List.Subset.refl _
  cases n with
  | classDecl span origin symbol members =>
    simp only [relabel, brings, List.map_singleton, map.image_symbol]
    exact List.Subset.refl _
  | variableDecl span origin symbol init =>
    simp only [relabel, brings, List.map_singleton, map.image_symbol]
    exact List.Subset.refl _
  | functionDecl span origin symbol body =>
    exact hbrings (.fn symbol) (SymbolTable.mem_withParams.2 rfl)
  | constructorDecl span origin symbol body =>
    exact hbrings (.ctor symbol) (SymbolTable.mem_withParams.2 rfl)
  | call span origin ty callee =>
    cases callee with
    | ctor callee =>
      simp only [relabel, getD_callable?, redirectCallable, brings]
      exact List.nil_subset _
    | fn callee =>
      simp only [relabel, getD_callable?, redirectCallable, brings]
      split
      · rename_i hi
        have hinvoke := h.isInvoke callee (hknown.mention (.head _)) hi
        rw [if_pos hinvoke]
        refine hbrings (.fn callee) ?_
        rw [brings, if_pos hinvoke]
        exact SymbolTable.mem_withParams.2 rfl
      · exact List.nil_subset _
  | callableRef | returnFrom =>
    simp only [relabel]
    split <;> exact List.nil_subset _
  | _ => exact List.nil_subset _

/-- All that copied nodes bring are copies of what the nodes bring. -/
theorem exists_of_mem_bringsAll (h : map.Carries program.symbols after ns) (hmet : met ⊆ ns)
    (hns : ∀ n ∈ ns, n.KnownTo program) {a : Symbol}
    (ha : a ∈ bringsAll after (met.map (transform (relabel map τ)))) :
    ∃ b ∈ bringsAll program.symbols met, map.image b = a := by
  obtain ⟨n', hn', ha⟩ := List.mem_flatMap.1 ha
  obtain ⟨n, hn, rfl⟩ := List.mem_map.1 hn'
  rw [transform_eq, brings_withChildren] at ha
  obtain ⟨b, hb, rfl⟩ := List.mem_map.1 (h.brings_subset (hmet hn) (hns n (hmet hn)) ha)
  exact ⟨b, List.mem_flatMap.2 ⟨n, hn, hb⟩, rfl⟩

/-- What some nodes declare is brought by their copies. -/
theorem image_mem_of_declared {a : Symbol} (ha : a ∈ declaredBy met) :
    map.image a ∈ bringsAll after (met.map (transform (relabel map τ))) := by
  refine mem_bringsAll.2 (.inl ?_)
  rw [declaredBy_transform]
  exact List.mem_map_of_mem ha

/-- The copy of a node that calls an operator calls the copy of that operator. -/
theorem invoked?_transform {f : FunctionId} (hf : n.invoked? program.symbols = some f)
    (hi : after.isInvoke (map.redirect f) = true) :
    (n.transform (relabel map τ)).invoked? after = some (map.redirect f) := by
  rw [transform_eq, invoked?_withChildren]
  unfold invoked? at hf
  split at hf
  · split at hf
    · cases hf
      simp only [relabel, getD_callable?, redirectCallable, invoked?, hi, if_pos]
    · cases hf
  · cases hf

/-- What some nodes invoke is brought by their copies, if its copy is an `invoke` operator. -/
theorem image_mem_of_invoked {f : FunctionId} (hf : f ∈ invokedBy program.symbols met)
    (hi : after.isInvoke (map.redirect f) = true) :
    map.image f.symbol ∈ bringsAll after (met.map (transform (relabel map τ))) := by
  obtain ⟨n, hn, hf⟩ := List.mem_filterMap.1 hf
  refine mem_bringsAll.2 (.inr (.inl ⟨_, List.mem_filterMap.2 ⟨_, List.mem_map_of_mem hn,
    invoked?_transform hf hi⟩, map.image_symbol f⟩))

/-- What nodes do not bring is not brought, as a copy, by their copies. -/
theorem not_mem_bringsAll (h : map.Carries program.symbols after ns) (hclosed : program.Closed)
    (hns : ∀ n ∈ ns, n.KnownTo program) (hmet : met ⊆ ns) {a : Symbol}
    (halloc : program.symbols.Allocated a) (ha : a ∉ bringsAll program.symbols met) :
    map.image a ∉ bringsAll after (met.map (transform (relabel map τ))) := by
  intro hm
  obtain ⟨b, hb, himage⟩ := h.exists_of_mem_bringsAll hmet hns hm
  have hb' := bringsAll_allocated hclosed (fun n hn => hns n (hmet hn)) hb
  exact ha (h.injective b a hb' halloc himage ▸ hb)

/-- Symbols that are unmet have unmet images. -/
theorem unmet (h : map.Carries program.symbols after ns) (hclosed : program.Closed)
    (hns : ∀ n ∈ ns, n.KnownTo program) (hmet : met ⊆ ns) {keys : List Symbol}
    (halloc : ∀ a ∈ keys, program.symbols.Allocated a)
    (hkeys : Unmet program.symbols met keys) :
    Unmet after (met.map (transform (relabel map τ))) (keys.map map.image) := by
  refine ⟨hkeys.1.map_on fun a ha b hb => h.injective a b (halloc a ha) (halloc b hb), ?_⟩
  refine List.forall_mem_map.2 fun a ha => ?_
  exact h.not_mem_bringsAll hclosed hns hmet (halloc a ha) (hkeys.2 a ha)

/-- A symbol not met in the tree is one whose copy is not met in the copied tree. -/
theorem unmet_symbol (h : map.Carries program.symbols after ns) (hclosed : program.Closed)
    (hns : ∀ n ∈ ns, n.KnownTo program) (hmet : met ⊆ ns) {k : Kind} {id : SymbolId k}
    (halloc : program.symbols.Allocated id.symbol)
    (hid : Unmet program.symbols met [id.symbol]) :
    Unmet after (met.map (transform (relabel map τ))) [(map.redirect id).symbol] := by
  rw [← map.image_symbol, ← List.map_singleton]
  exact h.unmet hclosed hns hmet (List.forall_mem_singleton.2 halloc) hid

/-- A callable that is unmet with its parameters has an unmet copy. -/
theorem unmet_withParams (h : map.Carries program.symbols after ns) (hclosed : program.Closed)
    (hns : ∀ n ∈ ns, n.KnownTo program) (hmet : met ⊆ ns) {c : Callable}
    (hc : c.symbol ∈ bringsAll program.symbols ns) (halloc : program.symbols.Allocated c.symbol)
    (hkeys : Unmet program.symbols met (program.symbols.withParams c)) :
    Unmet after (met.map (transform (relabel map τ)))
      (after.withParams (map.redirectCallable c)) := by
  rw [h.withParams hc]
  exact h.unmet hclosed hns hmet (fun a ha => hclosed.withParams_allocated halloc ha) hkeys

/-- A relabelled node gets what it needs. -/
theorem admits (h : map.Carries program.symbols after ns) (hclosed : program.Closed)
    (hns : ∀ n ∈ ns, n.KnownTo program) (hmet : met ⊆ ns) (hn : n ∈ ns)
    (hadmits : Admits program.symbols met n) :
    Admits after (met.map (transform (relabel map τ))) (n.relabel map τ) := by
  have hknown := hns n hn
  have hdeclared : ∀ a, n.declared? = some a → a ∈ declaredBy ns := fun a ha =>
    List.mem_filterMap.2 ⟨n, hn, ha⟩
  cases n with
  | classDecl span origin symbol members =>
    exact h.unmet_symbol hclosed hns hmet (hknown.mention (.head _)) hadmits
  | variableDecl span origin symbol init =>
    exact h.unmet_symbol hclosed hns hmet (hknown.mention (.head _)) hadmits
  | functionDecl span origin symbol body =>
    have hd : (Callable.fn symbol).symbol ∈ declaredBy ns := hdeclared _ rfl
    exact ⟨h.typeParams (.fn symbol) hd, h.unmet_withParams hclosed hns hmet
      (callable_mem_bringsAll.2 (.inl hd)) (hknown.mention (.head _)) hadmits.2⟩
  | constructorDecl span origin symbol body =>
    have hd : (Callable.ctor symbol).symbol ∈ declaredBy ns := hdeclared _ rfl
    refine ⟨fun r' hr' => ?_, h.typeParams (.ctor symbol) hd, h.unmet_withParams hclosed hns hmet
      (callable_mem_bringsAll.2 (.inl hd)) (hknown.mention (.head _)) hadmits.2.2⟩
    obtain ⟨r, hr⟩ := SymbolTable.allocated_iff.1 (hknown.mention (.head _))
    rw [h.constructors symbol r r' hd hr hr', ← map.image_symbol]
    exact image_mem_of_declared (class_mem_bringsAll.1 (hadmits.1 r hr))
  | call span origin ty callee =>
    cases callee with
    | ctor callee =>
      simp only [relabel, getD_callable?, redirectCallable]
      trivial
    | fn callee =>
      simp only [relabel, getD_callable?, redirectCallable]
      intro hi hnot
      have halloc : program.symbols.Allocated callee.symbol := hknown.mention (.head _)
      have hinvoke := h.isInvoke callee halloc hi
      have hcalled : callee ∈ invokedBy program.symbols ns := by
        refine List.mem_filterMap.2 ⟨_, hn, ?_⟩
        rw [invoked?, if_pos hinvoke]
      refine h.unmet_withParams hclosed hns hmet (c := .fn callee)
        (callable_mem_bringsAll.2 (.inr ⟨callee, hcalled, rfl⟩)) halloc (hadmits hinvoke ?_)
      -- if the operator was met, so was its copy
      intro hm
      rw [← map.image_symbol] at hnot
      rcases callable_mem_bringsAll (c := .fn callee).1 hm with hd | ⟨f, hf, hfn⟩
      · exact hnot (image_mem_of_declared hd)
      · obtain rfl := Callable.fn.inj hfn
        exact hnot (image_mem_of_invoked hf hi)
  | callableRef | returnFrom =>
    simp only [relabel]
    split <;> trivial
  | _ => trivial

/-- A relabelled class finds the copies of its constructors. -/
theorem closes (h : map.Carries program.symbols after ns) (hns : ∀ n ∈ ns, n.KnownTo program)
    (hn : n ∈ ns) (hcloses : Closes program.symbols met n) :
    Closes after (met.map (transform (relabel map τ))) (n.relabel map τ) := by
  cases n with
  | classDecl span origin symbol members =>
    intro r' hr' c' hc'
    have hd : symbol.symbol ∈ declaredBy ns := List.mem_filterMap.2 ⟨_, hn, rfl⟩
    obtain ⟨r, hr⟩ := SymbolTable.allocated_iff.1 ((hns _ hn).mention (.head _))
    obtain ⟨hconstructors, hprimary⟩ := h.classes symbol r r' hd hr hr'
    rw [hconstructors, hprimary, Option.toList_map, ← List.map_append] at hc'
    obtain ⟨c, hc, rfl⟩ := List.mem_map.1 hc'
    rw [← map.image_symbol]
    exact image_mem_of_declared (constructor_mem_bringsAll.1 (hcloses r hr c hc))
  | callableRef | returnFrom =>
    simp only [relabel]
    split <;> trivial
  | _ => trivial

/-- **The copy of what can be copied can be copied.** -/
theorem lawful {root : Node} (h : map.Carries program.symbols after root.descendants)
    (hclosed : program.Closed) (hroot : root.ClosedIn program)
    (hlawful : Lawful program.symbols [] root.children) :
    Lawful after [] (root.transformBelow (relabel map τ)).children := by
  have hns : ∀ n ∈ root.descendants, n.KnownTo program := fun n hn => hroot.below hn
  intro a' n' b' hsplit
  rw [preorder_children, descendants_relabel] at hsplit
  obtain ⟨a, rest, hrest, rfl, hmap⟩ := List.map_eq_append_iff.1 hsplit
  obtain ⟨n, c, rfl, rfl, hmap⟩ := List.map_eq_cons_iff.1 hmap
  rw [← preorder_children] at hrest
  obtain ⟨b, rfl⟩ := descendants_follow hrest
  obtain ⟨hadmits, hcloses⟩ := hlawful a n b hrest
  rw [preorder_children] at hrest
  have hn : n ∈ root.descendants := hrest ▸ List.mem_append_right _ (.head _)
  have hbefore : a ⊆ root.descendants := hrest ▸ List.subset_append_left _ _
  rw [transform_eq, admits_withChildren, closes_withChildren, ← transform_eq,
    descendants_transform fun n => by rw [children_relabel]]
  refine ⟨h.admits hclosed hns hbefore hn hadmits, ?_⟩
  rw [List.nil_append, ← List.map_cons, ← List.map_append]
  exact h.closes hns hn hcloses

/-- A callable that comes with the tree has a copy that comes with the copied tree. -/
theorem callable_mem (h : map.Carries program.symbols after ns) {c : Callable}
    (hc : c.symbol ∈ bringsAll program.symbols ns) :
    (map.redirectCallable c).symbol ∈ bringsAll after (ns.map (transform (relabel map τ))) := by
  rw [← image_redirectCallable]
  by_cases hd : c.symbol ∈ declaredBy ns
  · exact image_mem_of_declared hd
  · obtain ⟨f, hf, rfl⟩ := (callable_mem_bringsAll.1 hc).resolve_left hd
    exact image_mem_of_invoked hf (h.invoked f hf hd)

/-- **With the copied tree come the images of what comes with the tree.** -/
theorem mem_bringsAll (h : map.Carries program.symbols after ns)
    (hns : ∀ n ∈ ns, n.KnownTo program) {a : Symbol} :
    a ∈ bringsAll after (ns.map (transform (relabel map τ))) ↔
      ∃ b ∈ bringsAll program.symbols ns, map.image b = a := by
  refine ⟨h.exists_of_mem_bringsAll (List.Subset.refl _) hns, ?_⟩
  rintro ⟨b, hb, rfl⟩
  rcases Node.mem_bringsAll.1 hb with hd | ⟨f, hf, rfl⟩ | ⟨p, hp, rfl⟩
  · exact image_mem_of_declared hd
  · have hf' : (map.redirectCallable (.fn f)).symbol ∈
        bringsAll after (ns.map (transform (relabel map τ))) := h.callable_mem hb
    rwa [← image_redirectCallable] at hf'
  · obtain ⟨c, hc, hp⟩ := exists_callable_of_param hp
    refine withParams_subset_bringsAll (h.callable_mem hc) ?_
    rw [h.withParams hc]
    exact List.mem_map_of_mem (SymbolTable.mem_withParams_iff.2 (.inl ⟨p, hp, rfl⟩))

/-- **The copies play the roles again,** with the symbols in them exchanged. -/
theorem plays {root : Node} (h : map.Carries program.symbols after root.descendants)
    (τ : TypeId → TypeId) (hclosed : program.Closed) (hroot : root.ClosedIn program) {k : Kind}
    {id : SymbolId k} {role : CopyRole k} (hplays : root.Plays program.symbols id role) :
    (root.transformBelow (relabel map τ)).Plays after (map.redirect id)
      (role.rename (map.toRenaming τ)) := by
  have hns : ∀ n ∈ root.descendants, n.KnownTo program := fun n hn => hroot.below hn
  have hdescendants := descendants_relabel map τ root
  cases hplays with
  | declared hid hrole =>
    refine .declared ?_ ?_
    · rw [hdescendants, declaredBy_transform, ← map.image_symbol]
      exact List.mem_map_of_mem hid
    · cases k <;> cases hrole <;> rfl
  | @invoke f hid hnot =>
    refine .invoke ?_ ?_
    · obtain ⟨n, hn, hf⟩ := List.mem_filterMap.1 hid
      rw [hdescendants]
      exact List.mem_filterMap.2 ⟨_, List.mem_map_of_mem hn,
        invoked?_transform hf (h.invoked f hid hnot)⟩
    · -- a declared symbol with the same image would be the operator itself
      rw [hdescendants, declaredBy_transform, ← map.image_symbol]
      intro hd
      obtain ⟨b, hb, himage⟩ := List.mem_map.1 hd
      have hb' := bringsAll_allocated hclosed hns (Node.mem_bringsAll.2 (.inl hb))
      have hf' := bringsAll_allocated hclosed hns (Node.mem_bringsAll.2 (.inr (.inl ⟨f, hid, rfl⟩)))
      exact hnot (h.injective b _ hb' hf' himage ▸ hb)
  | @param p c hcallable hid =>
    have hcopy : (map.toRenaming τ).callable c = map.redirectCallable c := by cases c <;> rfl
    rw [CopyRole.rename, hcopy]
    refine .param ?_ ?_
    · rw [hdescendants]
      exact h.callable_mem hcallable
    · rw [h.params c hcallable]
      exact List.mem_map_of_mem hid

end Carries

end CopyMap

namespace Copier

open Node (declaredBy bringsAll)
open ParamSubst (outcome)

variable {σ : Type} {program : Program} {subst : Option ParamSubst}

/-- **The map of a copy carries what the records say** to the records of the copies. -/
theorem copy_carries {program' : Program} {memory memory' : σ} {target : FunctionId}
    {options : CopyOptions} {root : Node} {inlined : String} {copied : Copied}
    (hclosed : program.Closed) (hroot : root.ClosedIn program)
    (hwithin : ∀ s ∈ subst, s.Within program.pool)
    (hcopy : (ofParams target subst options).copy root inlined (program, memory) =
      .ok copied (program', memory')) :
    copied.map.Carries program.symbols program'.symbols root.descendants := by
  have hactions := actions_of_copy hcopy
  obtain ⟨hlawful, -, haccount⟩ := (actions_account options inlined memory hclosed
    (target_allocated hactions) hroot hwithin).ok_of_eq hactions
  obtain ⟨-, hadds⟩ := (actions_adds target subst options root inlined program memory).ok_of_eq
    hactions
  have hns : ∀ n ∈ root.descendants, n.KnownTo program := fun n hn => hroot.below hn
  have halloc : ∀ {a : Symbol}, a ∈ bringsAll program.symbols root.descendants →
      program.symbols.Allocated a := Node.bringsAll_allocated hclosed hns
  have hrecord : ∀ {k : Kind} {id : SymbolId k} {role : CopyRole k} {r : Record k},
      id.symbol ∈ declaredBy root.descendants → CopyRole.declared? k = some role →
        program.symbols.get? id = some r → ∃ name, program'.symbols.get? (copied.map.redirect id) =
          some (role.record (copied.terms target options (outcome subst program'.pool)) name r) :=
    fun hid hrole hr => copy_records hclosed hroot hwithin hcopy (.declared hid hrole) hr
  refine ⟨fun a b => hadds.tracks.image_injective, fun c hc =>
    haccount.paramsOf_redirect ((haccount.keys _).2 hc), fun c hc => ?_,
    fun c r r' hc hr hr' => ?_, fun cls r r' hcls hr hr' => ?_, fun f hf hi => ?_,
    fun f hf hnot => ?_⟩
  · have hthere := halloc (Node.mem_bringsAll.2 (.inl hc))
    cases c with
    | fn id | ctor id =>
      obtain ⟨r, hr⟩ := SymbolTable.allocated_iff.1 hthere
      obtain ⟨name, hcopied⟩ := hrecord hc rfl hr
      rw [CopyMap.redirectCallable, SymbolTable.typeParamsOf, hcopied]
      rfl
  · obtain ⟨name, hcopied⟩ := hrecord hc rfl hr
    rw [Option.some.inj (hr'.symm.trans hcopied)]
    rfl
  · obtain ⟨name, hcopied⟩ := hrecord hcls rfl hr
    rw [Option.some.inj (hr'.symm.trans hcopied)]
    exact ⟨rfl, rfl⟩
  · by_cases hd : f.symbol ∈ declaredBy root.descendants
    · -- the copy of a declared function is no operator
      obtain ⟨r, hr⟩ := SymbolTable.allocated_iff.1 hf
      obtain ⟨name, hcopied⟩ := hrecord hd rfl hr
      rw [SymbolTable.isInvoke_of_get? hcopied] at hi
      cases hi
    · -- one that is called and not declared was an operator; any other was not copied
      by_cases hkey : f.symbol ∈ bringsAll program.symbols root.descendants
      · obtain ⟨n, -, hn⟩ := List.mem_filterMap.1 ((Node.invoked_mem_bringsAll hd).1 hkey)
        exact Node.isInvoke_of_invoked? hn
      · have hkept : copied.map.redirect f = f := by
          rw [← SymbolId.symbol_inj, ← CopyMap.image_symbol]
          refine CopyMap.image_of_not_copied (CopyMap.copyOf?_eq_none_iff.2 fun hk => hkey ?_)
          exact (haccount.keys _).1 hk
        rwa [hkept, hadds.extends_.symbols.isInvoke hf] at hi
  · have hthere := halloc (Node.mem_bringsAll.2 (.inr (.inl ⟨f, hf, rfl⟩)))
    obtain ⟨r, hr⟩ := SymbolTable.allocated_iff.1 hthere
    obtain ⟨name, hcopied⟩ := copy_records hclosed hroot hwithin hcopy (.invoke hf hnot) hr
    obtain ⟨n, -, hn⟩ := List.mem_filterMap.1 hf
    rw [SymbolTable.isInvoke_of_get? hcopied]
    exact (SymbolTable.isInvoke_of_get? hr).symm.trans (Node.isInvoke_of_invoked? hn)

end Copier

end Graft
