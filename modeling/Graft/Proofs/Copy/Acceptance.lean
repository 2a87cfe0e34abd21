/-
# Which trees can be copied

Seen from the outside, a tree can be copied if it declares no symbol twice, no parameter
occurs twice among those that come with it, no callable in it is generic, and its
classes and constructors stand in an order in which each finds what it mentions
(`Node.Copyable`).  Over a closed program this is what the walk through the tree asks for
(`Node.lawful_iff_copyable`), so it decides whether a copy succeeds
(`Copier.copy_succeeds_iff`).
-/

import Graft.Proofs.Copy.Soundness
import Mathlib.Data.List.Dedup
import Mathlib.Data.List.Induction

namespace Graft

namespace Node

/-- The symbols that some nodes declare. -/
def declaredBy (ns : List Node) : List Symbol := ns.filterMap declared?

/-- The `invoke` operators that some nodes call. -/
def invokedBy (table : SymbolTable) (ns : List Node) : List FunctionId :=
  ns.filterMap (invoked? table)

/-- One list of parameters for each node that declares a callable, and one for each
different `invoke` operator that is called. -/
def paramsFor (table : SymbolTable) (ns : List Node) : List ParamId :=
  ns.flatMap (declaredParams table) ++
    (invokedBy table ns).dedup.flatMap fun f => table.paramsOf (.fn f)

/-- What can be copied. -/
structure Copyable (root : Node) (table : SymbolTable) : Prop where
  /-- No symbol is declared by two nodes below the root. -/
  declared_nodup : (declaredBy root.descendants).Nodup
  /-- No parameter occurs twice in the lists of the callables that are declared and of
  the `invoke` operators that are called below the root. -/
  params_nodup : (paramsFor table root.descendants).Nodup
  /-- No callable that is declared below the root has type parameters. -/
  not_generic : ∀ n ∈ root.descendants, ∀ callable, n.callable? = some callable →
    table.typeParamsOf callable = []
  /-- Every constructor comes after its class. -/
  class_before : ∀ a n b, root.descendants = a ++ n :: b →
    ∀ (constructor : ConstructorId) (r : ConstructorRecord),
      n.callable? = some (.ctor constructor) → table.get? constructor = some r →
      r.cls.symbol ∈ declaredBy a
  /-- The constructors that a class lists, its primary one included, are declared before
  the end of what is below the class. -/
  constructors_within : ∀ a n b, root.descendants = a ++ n :: (n.descendants ++ b) →
    ∀ (cls : ClassId) (r : ClassRecord),
      n.declared? = some cls.symbol → table.get? cls = some r →
      ∀ c ∈ r.constructors ++ r.primary.toList, c.symbol ∈ declaredBy (a ++ n :: n.descendants)

variable {table : SymbolTable} {met : List Node}

/-- The value parameters of the callables that nodes declare or call as operators. -/
theorem mem_paramsFor {p : ParamId} :
    p ∈ paramsFor table met ↔ (∃ n ∈ met, p ∈ n.declaredParams table) ∨
      ∃ f ∈ invokedBy table met, p ∈ table.paramsOf (.fn f) := by
  rw [paramsFor, List.mem_append, List.mem_flatMap, List.mem_flatMap]
  simp only [List.mem_dedup]

/-- What nodes bring: the symbols that they declare, the operators that they call, and
the parameters that come with these. -/
theorem mem_bringsAll {a : Symbol} :
    a ∈ bringsAll table met ↔
      a ∈ declaredBy met ∨ (∃ f ∈ invokedBy table met, a = f.symbol) ∨
        ∃ p ∈ paramsFor table met, a = p.symbol := by
  simp only [bringsAll, List.mem_flatMap, mem_brings, declaredBy, invokedBy, List.mem_filterMap,
    mem_paramsFor]
  constructor
  · rintro ⟨n, hn, h | ⟨f, hf, rfl⟩ | ⟨p, hp, rfl⟩ | ⟨f, hf, p, hp, rfl⟩⟩
    · exact .inl ⟨n, hn, h⟩
    · exact .inr (.inl ⟨f, ⟨n, hn, hf⟩, rfl⟩)
    · exact .inr (.inr ⟨p, .inl ⟨n, hn, hp⟩, rfl⟩)
    · exact .inr (.inr ⟨p, .inr ⟨f, ⟨n, hn, hf⟩, hp⟩, rfl⟩)
  · rintro (⟨n, hn, h⟩ | ⟨f, ⟨n, hn, hf⟩, rfl⟩ | ⟨p, ⟨n, hn, hp⟩ | ⟨f, ⟨n, hn, hf⟩, hp⟩, rfl⟩)
    · exact ⟨n, hn, .inl h⟩
    · exact ⟨n, hn, .inr (.inl ⟨f, hf, rfl⟩)⟩
    · exact ⟨n, hn, .inr (.inr (.inl ⟨p, hp, rfl⟩))⟩
    · exact ⟨n, hn, .inr (.inr (.inr ⟨f, hf, p, hp, rfl⟩))⟩

/-! ### One node more -/

/-- The `invoke` operator that a node calls, if no node met before it does. -/
def newInvoke? (table : SymbolTable) (met : List Node) (n : Node) : Option FunctionId :=
  (n.invoked? table).filter (· ∉ invokedBy table met)

/-- The parameters that a node adds to those of the nodes met before it. -/
def newParams (table : SymbolTable) (met : List Node) (n : Node) : List ParamId :=
  n.declaredParams table ++
    (newInvoke? table met n).toList.flatMap fun f => table.paramsOf (.fn f)

/-- An operator is new at a node if the node calls it and none before it has. -/
theorem newInvoke?_eq_some {n : Node} {f : FunctionId} :
    newInvoke? table met n = some f ↔ n.invoked? table = some f ∧ f ∉ invokedBy table met := by
  rw [newInvoke?, Option.filter_eq_some_iff, decide_eq_true_iff]

/-- One more node adds the operator that is new there, if there is one. -/
theorem dedup_invokedBy (met : List Node) (n : Node) :
    (invokedBy table (met ++ [n])).dedup.Perm
      ((invokedBy table met).dedup ++ (newInvoke? table met n).toList) := by
  have hnodup : ((invokedBy table met).dedup ++ (newInvoke? table met n).toList).Nodup := by
    refine List.nodup_append.2 ⟨List.nodup_dedup _, ?_, ?_⟩
    · cases newInvoke? table met n <;> simp
    · rintro f hf _ hf' rfl
      exact (newInvoke?_eq_some.1 (Option.mem_toList.1 hf')).2 (List.mem_dedup.1 hf)
  refine (List.perm_ext_iff_of_nodup (List.nodup_dedup _) hnodup).2 fun f => ?_
  rw [List.mem_dedup, List.mem_append, List.mem_dedup, Option.mem_toList,
    newInvoke?_eq_some, invokedBy, List.filterMap_append, List.mem_append,
    ← invokedBy, List.mem_filterMap]
  simp only [List.mem_singleton, exists_eq_left]
  by_cases hf : f ∈ invokedBy table met <;> simp [hf]

/-- With a node come the parameters that it adds. -/
theorem paramsFor_append (met : List Node) (n : Node) :
    (paramsFor table (met ++ [n])).Perm (paramsFor table met ++ newParams table met n) := by
  have hdedup : (invokedBy table (met ++ [n])).dedup.Perm _ := dedup_invokedBy met n
  have hinvokes := hdedup.flatMap_right fun f => table.paramsOf (.fn f)
  rw [List.flatMap_append] at hinvokes
  unfold paramsFor newParams
  rw [List.flatMap_append, List.flatMap_singleton]
  refine (hinvokes.append_left _).trans ?_
  rw [List.append_assoc, List.append_assoc]
  exact (List.perm_append_comm_assoc ..).append_left _

/-- What a node adds does not repeat what came with the nodes met before it. -/
structure AddsNew (table : SymbolTable) (met : List Node) (n : Node) : Prop where
  declared : ∀ a, n.declared? = some a → a ∉ declaredBy met
  nodup : (newParams table met n).Nodup
  params : ∀ p ∈ newParams table met n, p ∉ paramsFor table met

/-- Nothing is repeated up to a node if nothing is repeated before it, and it adds only
what is new. -/
theorem nodup_append_iff (met : List Node) (n : Node) :
    ((declaredBy (met ++ [n])).Nodup ∧ (paramsFor table (met ++ [n])).Nodup) ↔
      ((declaredBy met).Nodup ∧ (paramsFor table met).Nodup) ∧ AddsNew table met n := by
  have hdeclared : (declaredBy (met ++ [n])).Nodup ↔
      (declaredBy met).Nodup ∧ ∀ a, n.declared? = some a → a ∉ declaredBy met := by
    have hn : declaredBy [n] = n.declared?.toList := by
      rw [declaredBy, List.filterMap_cons]
      cases n.declared? <;> rfl
    rw [declaredBy, List.filterMap_append, ← declaredBy, ← declaredBy, hn, List.nodup_append',
      List.disjoint_right]
    cases n.declared? <;> simp
  have hparams : (paramsFor table (met ++ [n])).Nodup ↔
      (paramsFor table met).Nodup ∧ (newParams table met n).Nodup ∧
        ∀ p ∈ newParams table met n, p ∉ paramsFor table met := by
    rw [(paramsFor_append met n).nodup_iff, List.nodup_append', List.disjoint_right]
  rw [hdeclared, hparams]
  constructor
  · rintro ⟨⟨h₁, h₂⟩, h₃, h₄, h₅⟩
    exact ⟨⟨h₁, h₃⟩, h₂, h₄, h₅⟩
  · rintro ⟨⟨h₁, h₃⟩, h₂, h₄, h₅⟩
    exact ⟨⟨h₁, h₂⟩, h₃, h₄, h₅⟩

/-- What is kept from each node to the next holds at the end if every node keeps it. -/
theorem forall_split_iff {P : List Node → Prop} {Q : List Node → Node → Prop} (hnil : P [])
    (hstep : ∀ met n, P (met ++ [n]) ↔ P met ∧ Q met n) (ns : List Node) :
    P ns ↔ ∀ a n b, ns = a ++ n :: b → Q a n := by
  induction ns using List.reverseRecOn with
  | nil => exact iff_of_true hnil fun a n b h => by cases a <;> cases h
  | append_singleton ns n ih =>
    rw [hstep, ih]
    constructor
    · rintro ⟨hns, hn⟩ a m b h
      rcases split_append h with ⟨c, hin, -⟩ | ⟨a', rfl, hin⟩
      · exact hns a m c hin
      · cases a' with
        | nil =>
          obtain ⟨rfl, -⟩ := List.cons.inj hin
          rwa [List.append_nil]
        | cons m' a' => cases a' <;> cases (List.cons.inj hin).2
    · intro h
      exact ⟨fun a m b hin => h a m (b ++ [n]) (by rw [hin]; simp), h ns n [] rfl⟩

/-! ### What a node needs -/

/-- No node declares a value parameter. -/
theorem declared?_kind {n : Node} {a : Symbol} (h : n.declared? = some a) : a.kind ≠ .param := by
  cases n <;> cases h <;> exact fun h => nomatch h

/-- A node that declares something calls nothing. -/
theorem invoked?_of_declared? {n : Node} {a : Symbol} (h : n.declared? = some a) :
    n.invoked? table = none := by
  cases n <;> cases h <;> rfl

/-- What a node calls as an operator is one. -/
theorem isInvoke_of_invoked? {n : Node} {f : FunctionId} (h : n.invoked? table = some f) :
    table.isInvoke f = true := by
  unfold invoked? at h
  split at h
  · split at h
    · cases h
      assumption
    · cases h
  · cases h

/-- The value parameters brought are those of the callables declared or called as operators. -/
theorem param_mem_bringsAll {p : ParamId} :
    p.symbol ∈ bringsAll table met ↔ p ∈ paramsFor table met := by
  rw [mem_bringsAll]
  constructor
  · rintro (h | ⟨f, -, h⟩ | ⟨q, hq, h⟩)
    · obtain ⟨n, -, hn⟩ := List.mem_filterMap.1 h
      exact absurd rfl (declared?_kind hn)
    · exact absurd h (SymbolId.symbol_ne (by decide) p f)
    · exact SymbolId.symbol_inj.1 h ▸ hq
  · exact fun h => .inr (.inr ⟨p, h, rfl⟩)

/-- Where no `invoke` operator is declared, what is declared is brought only by being
declared. -/
theorem declared_mem_bringsAll {a : Symbol} (hkind : a.kind ≠ .param)
    (hinvoke : ∀ f : FunctionId, a = f.symbol → table.isInvoke f = false) :
    a ∈ bringsAll table met ↔ a ∈ declaredBy met := by
  rw [mem_bringsAll]
  constructor
  · rintro (h | ⟨f, hf, rfl⟩ | ⟨p, -, rfl⟩)
    · exact h
    · obtain ⟨m, -, hm⟩ := List.mem_filterMap.1 hf
      have hyes := isInvoke_of_invoked? hm
      rw [hinvoke f rfl] at hyes
      cases hyes
    · exact absurd rfl hkind
  · exact .inl

/-- Classes are brought only by being declared. -/
theorem class_mem_bringsAll {cls : ClassId} :
    cls.symbol ∈ bringsAll table met ↔ cls.symbol ∈ declaredBy met :=
  declared_mem_bringsAll nofun fun f hf => absurd hf (SymbolId.symbol_ne (by decide) cls f)

/-- So are constructors. -/
theorem constructor_mem_bringsAll {c : ConstructorId} :
    c.symbol ∈ bringsAll table met ↔ c.symbol ∈ declaredBy met :=
  declared_mem_bringsAll nofun fun f hf => absurd hf (SymbolId.symbol_ne (by decide) c f)

/-- An operator that is not declared is brought by the nodes that call it. -/
theorem invoked_mem_bringsAll {f : FunctionId} (hf : f.symbol ∉ declaredBy met) :
    f.symbol ∈ bringsAll table met ↔ f ∈ invokedBy table met := by
  rw [mem_bringsAll]
  constructor
  · rintro (h | ⟨g, hg, h⟩ | ⟨p, -, h⟩)
    · exact absurd h hf
    · exact SymbolId.symbol_inj.1 h ▸ hg
    · exact absurd h (SymbolId.symbol_ne (by decide) f p)
  · exact fun h => .inr (.inl ⟨f, h, rfl⟩)

/-- A callable and its parameters are unmet if the parameters are different and new and
the callable is new. -/
theorem unmet_withParams {callable : Callable} :
    Unmet table met (table.withParams callable) ↔
      ((table.paramsOf callable).Nodup ∧ ∀ p ∈ table.paramsOf callable, p ∉ paramsFor table met) ∧
        callable.symbol ∉ bringsAll table met := by
  have hnodup : (table.withParams callable).Nodup ↔ (table.paramsOf callable).Nodup := by
    rw [SymbolTable.withParams, List.nodup_append', List.nodup_map_iff fun a b h =>
      SymbolId.symbol_inj.1 h, List.disjoint_singleton]
    refine and_iff_left ⟨List.nodup_singleton _, fun hc => ?_⟩
    obtain ⟨p, -, hp⟩ := List.mem_map.1 hc
    exact callable.symbol_ne (by decide) (by decide) p hp.symm
  rw [Unmet, hnodup]
  constructor
  · rintro ⟨h, hall⟩
    refine ⟨⟨h, fun p hp hm => ?_⟩, hall _ (SymbolTable.mem_withParams.2 rfl)⟩
    exact hall p.symbol (SymbolTable.mem_withParams_iff.2 (.inl ⟨p, hp, rfl⟩))
      (param_mem_bringsAll.2 hm)
  · rintro ⟨⟨h, hparams⟩, hcallable⟩
    refine ⟨h, fun a ha => ?_⟩
    rcases SymbolTable.mem_withParams_iff.1 ha with ⟨p, hp, rfl⟩ | rfl
    · exact fun hm => hparams p hp (param_mem_bringsAll.1 hm)
    · exact hcallable

/-- A single symbol is not met yet if nothing has brought it. -/
theorem unmet_singleton {a : Symbol} : Unmet table met [a] ↔ a ∉ bringsAll table met := by
  rw [Unmet, List.forall_mem_singleton]
  exact and_iff_right (List.nodup_singleton a)

/-- A node that declares nothing adds the parameters of the `invoke` operator that it
calls, if no node met calls it. -/
theorem addsNew_of_not_declared {n : Node} (h : n.declared? = none) (hc : n.callable? = none) :
    AddsNew table met n ↔ ∀ f, n.invoked? table = some f → f ∉ invokedBy table met →
      (table.paramsOf (.fn f)).Nodup ∧ ∀ p ∈ table.paramsOf (.fn f), p ∉ paramsFor table met := by
  have hparams : newParams table met n =
      (newInvoke? table met n).toList.flatMap fun f => table.paramsOf (.fn f) := by
    rw [newParams, declaredParams, hc]
    rfl
  constructor
  · rintro ⟨-, hnodup, hadded⟩ f hf hnew
    rw [hparams, newInvoke?_eq_some.2 ⟨hf, hnew⟩, Option.toList_some,
      List.flatMap_singleton] at hnodup hadded
    exact ⟨hnodup, hadded⟩
  · intro hall
    suffices hadded : (newParams table met n).Nodup ∧
        ∀ p ∈ newParams table met n, p ∉ paramsFor table met from
      ⟨fun a ha => absurd ha (h ▸ Option.some_ne_none a).symm, hadded.1, hadded.2⟩
    rw [hparams]
    cases hnew : newInvoke? table met n with
    | none => exact ⟨List.nodup_nil, List.forall_mem_nil _⟩
    | some f =>
      obtain ⟨hf, hnew⟩ := newInvoke?_eq_some.1 hnew
      rw [Option.toList_some, List.flatMap_singleton]
      exact hall f hf hnew

/-- A declaration adds only what is new if its parameters are different and new and no
node met brings what it declares. -/
theorem addsNew_of_declared {n : Node} {a : Symbol}
    (hinvoke : ∀ f : FunctionId, n.declared? = some f.symbol → table.isInvoke f = false)
    (ha : n.declared? = some a) :
    AddsNew table met n ↔ ((n.declaredParams table).Nodup ∧
      ∀ p ∈ n.declaredParams table, p ∉ paramsFor table met) ∧ a ∉ bringsAll table met := by
  have hnew : a ∈ bringsAll table met ↔ a ∈ declaredBy met :=
    declared_mem_bringsAll (declared?_kind ha) fun f hf => hinvoke f (hf ▸ ha)
  have hparams : newParams table met n = n.declaredParams table := by
    have hnone : n.invoked? table = none := invoked?_of_declared? ha
    rw [newParams, newInvoke?, hnone]
    exact List.append_nil _
  rw [hnew, ← hparams]
  constructor
  · exact fun h => ⟨⟨h.nodup, h.params⟩, h.declared a ha⟩
  · rintro ⟨⟨hnodup, hparams⟩, hnot⟩
    refine ⟨fun b hb => ?_, hnodup, hparams⟩
    obtain rfl := Option.some.inj (ha.symm.trans hb)
    exact hnot

/-- A class or a variable adds only what is new if and only if it is unmet. -/
theorem addsNew_iff_unmet {n : Node} {a : Symbol}
    (hinvoke : ∀ f : FunctionId, n.declared? = some f.symbol → table.isInvoke f = false)
    (ha : n.declared? = some a) (hc : n.callable? = none) :
    AddsNew table met n ↔ Unmet table met [a] := by
  have hparams : n.declaredParams table = [] := by
    rw [declaredParams, hc]
    rfl
  rw [addsNew_of_declared hinvoke ha, unmet_singleton, hparams]
  exact and_iff_right ⟨List.nodup_nil, List.forall_mem_nil _⟩

/-- A callable adds only what is new if and only if it and its parameters are unmet. -/
theorem addsNew_iff_unmet_withParams {n : Node} {callable : Callable}
    (hinvoke : ∀ f : FunctionId, n.declared? = some f.symbol → table.isInvoke f = false)
    (hc : n.callable? = some callable) :
    AddsNew table met n ↔ Unmet table met (table.withParams callable) := by
  have hparams : n.declaredParams table = table.paramsOf callable := by
    rw [declaredParams, hc]
    rfl
  rw [addsNew_of_declared hinvoke (declared?_of_callable? hc), unmet_withParams, hparams]

/-- Where no `invoke` operator is declared, an operator is met before exactly if it is
called before. -/
theorem admits_call_iff {span origin ty callee typeArgs superClass dispatch extension args}
    (hmet : SymbolId.symbol (k := .fn) callee ∈ declaredBy met → table.isInvoke callee = false) :
    Admits table met (.call span origin ty (.fn callee) typeArgs superClass dispatch extension
        args) ↔
      (table.isInvoke callee = true → callee ∉ invokedBy table met →
        (table.paramsOf (.fn callee)).Nodup ∧
          ∀ p ∈ table.paramsOf (.fn callee), p ∉ paramsFor table met) := by
  rw [Admits]
  refine forall_congr' fun hi => ?_
  have hnot : callee.symbol ∉ declaredBy met := fun h => by
    rw [hmet h] at hi
    cases hi
  rw [invoked_mem_bringsAll hnot, unmet_withParams, Callable.symbol, invoked_mem_bringsAll hnot]
  exact forall_congr' fun hnew => and_iff_left hnew

/-- Besides adding only what is new, a callable must not be generic, and the class of a
constructor must have been declared. -/
theorem admits_iff {n : Node}
    (hinvoke : ∀ f : FunctionId, f.symbol ∈ declaredBy (met ++ [n]) → table.isInvoke f = false) :
    Admits table met n ↔ AddsNew table met n ∧
      (∀ callable, n.callable? = some callable → table.typeParamsOf callable = []) ∧
      ∀ (constructor : ConstructorId) (r : ConstructorRecord),
        n.callable? = some (.ctor constructor) → table.get? constructor = some r →
        r.cls.symbol ∈ declaredBy met := by
  have hdeclaredBy : declaredBy (met ++ [n]) = declaredBy met ++ n.declared?.toList := by
    rw [declaredBy, List.filterMap_append, List.filterMap_cons]
    cases n.declared? <;> rfl
  have hown : ∀ f : FunctionId, n.declared? = some f.symbol → table.isInvoke f = false :=
    fun f hf => hinvoke f (hdeclaredBy ▸ List.mem_append_right _ (Option.mem_toList.2 hf))
  have hmet : ∀ f : FunctionId, f.symbol ∈ declaredBy met → table.isInvoke f = false :=
    fun f hf => hinvoke f (hdeclaredBy ▸ List.mem_append_left _ hf)
  -- nothing more is asked of a node that declares no callable
  have hmore : n.callable? = none →
      (∀ callable, n.callable? = some callable → table.typeParamsOf callable = []) ∧
      ∀ (constructor : ConstructorId) (r : ConstructorRecord),
        n.callable? = some (.ctor constructor) → table.get? constructor = some r →
        r.cls.symbol ∈ declaredBy met := by
    intro h
    simp [h]
  cases n with
  | classDecl span origin symbol members =>
    rw [addsNew_iff_unmet hown rfl rfl, and_iff_left (hmore rfl)]
    exact Iff.rfl
  | variableDecl span origin symbol init =>
    rw [addsNew_iff_unmet hown rfl rfl, and_iff_left (hmore rfl)]
    exact Iff.rfl
  | functionDecl span origin symbol body =>
    rw [addsNew_iff_unmet_withParams hown rfl]
    constructor
    · rintro ⟨hgeneric, hunmet⟩
      refine ⟨hunmet, fun c hc => ?_, fun c r hc => ?_⟩
      · obtain rfl := Option.some.inj hc
        exact hgeneric
      · cases hc
    · rintro ⟨hunmet, hgeneric, -⟩
      exact ⟨hgeneric _ rfl, hunmet⟩
  | constructorDecl span origin symbol body =>
    rw [addsNew_iff_unmet_withParams hown rfl]
    constructor
    · rintro ⟨hclass, hgeneric, hunmet⟩
      refine ⟨hunmet, fun c hc => ?_, fun c r hc hr => ?_⟩
      · obtain rfl := Option.some.inj hc
        exact hgeneric
      · obtain rfl := Callable.ctor.inj (Option.some.inj hc)
        exact class_mem_bringsAll.1 (hclass r hr)
    · rintro ⟨hunmet, hgeneric, hclass⟩
      exact ⟨fun r hr => class_mem_bringsAll.2 (hclass symbol r rfl hr), hgeneric _ rfl, hunmet⟩
  | call span origin ty callee typeArgs superClass dispatch extension args =>
    rw [addsNew_of_not_declared rfl rfl, and_iff_left (hmore rfl)]
    cases callee with
    | ctor callee => simp [Admits, invoked?]
    | fn callee =>
      rw [admits_call_iff (hmet callee), invoked?]
      by_cases hi : table.isInvoke callee = true <;> simp [hi]
  | callableRef | returnFrom | getValue | setVariable | block | const | «when» | whileLoop
  | typeOp =>
    rw [addsNew_of_not_declared rfl rfl, and_iff_left (hmore rfl)]
    simp [Admits, invoked?]

/-! ### The whole tree -/

/-- A class may be closed once the constructors it lists have been declared. -/
theorem closes_iff {n : Node} :
    Closes table met n ↔ ∀ (cls : ClassId) (r : ClassRecord),
      n.declared? = some cls.symbol → table.get? cls = some r →
      ∀ c ∈ r.constructors ++ r.primary.toList, c.symbol ∈ declaredBy met := by
  cases n with
  | classDecl span origin symbol members =>
    constructor
    · intro h cls r hcls hr c hc
      obtain rfl := SymbolId.symbol_inj.1 (Option.some.inj hcls)
      exact constructor_mem_bringsAll.1 (h r hr c hc)
    · exact fun h r hr c hc => constructor_mem_bringsAll.2 (h symbol r rfl hr c hc)
  | functionDecl | constructorDecl | variableDecl =>
    refine iff_of_true trivial fun cls r hcls => ?_
    exact absurd (Option.some.inj hcls) (SymbolId.symbol_ne (by decide) _ cls)
  | call | callableRef | returnFrom | getValue | setVariable | block | const | «when»
  | whileLoop | typeOp => exact iff_of_true trivial fun cls r hcls => nomatch hcls

/-- **The walk asks for what can be seen from the outside.** -/
theorem lawful_iff_copyable {root : Node}
    (hinvoke : ∀ f : FunctionId, f.symbol ∈ declaredBy root.descendants →
      table.isInvoke f = false) :
    Lawful table [] root.children ↔ root.Copyable table := by
  have hbefore : ∀ a n b, root.descendants = a ++ n :: b →
      ∀ f : FunctionId, f.symbol ∈ declaredBy (a ++ [n]) → table.isInvoke f = false := by
    intro a n b h f hf
    refine hinvoke f ?_
    rw [h, List.append_cons, declaredBy, List.filterMap_append]
    exact List.mem_append_left _ hf
  -- nothing is repeated if and only if every node adds what is new
  have hnodup : ((declaredBy root.descendants).Nodup ∧
      (paramsFor table root.descendants).Nodup) ↔
        ∀ a n b, root.descendants = a ++ n :: b → AddsNew table a n :=
    forall_split_iff (P := fun ns => (declaredBy ns).Nodup ∧ (paramsFor table ns).Nodup)
      ⟨.nil, .nil⟩ nodup_append_iff root.descendants
  constructor
  · intro h
    have hat : ∀ a n b, root.descendants = a ++ n :: b →
        Admits table a n ∧ Closes table (a ++ n :: n.descendants) n := by
      intro a n b hsplit
      rw [← preorder_children] at hsplit
      obtain ⟨b', rfl⟩ := descendants_follow hsplit
      exact h a n b' hsplit
    have hall a n b hsplit := (admits_iff (hbefore a n b hsplit)).1 (hat a n b hsplit).1
    obtain ⟨hdeclared, hparams⟩ := hnodup.2 fun a n b hsplit => (hall a n b hsplit).1
    refine ⟨hdeclared, hparams, fun n hn => ?_, fun a n b hsplit => (hall a n b hsplit).2.2,
      fun a n b hsplit => closes_iff.1 (hat a n _ hsplit).2⟩
    obtain ⟨a, b, hsplit⟩ := List.append_of_mem hn
    exact (hall a n b hsplit).2.1
  · intro h a n b hsplit
    rw [preorder_children] at hsplit
    refine ⟨(admits_iff (hbefore a n _ hsplit)).2 ⟨?_, ?_, ?_⟩, ?_⟩
    · exact hnodup.1 ⟨h.declared_nodup, h.params_nodup⟩ a n _ hsplit
    · exact h.not_generic n (hsplit ▸ List.mem_append_right _ (.head _))
    · exact h.class_before a n _ hsplit
    · exact closes_iff.2 (h.constructors_within a n b hsplit)

end Node

namespace Copier

open CopyJob (Fails)

variable {σ : Type} {program : Program} {memory : σ}

/-- A copy ends as its actions do. -/
theorem copy_ends {copier : Copier σ} {root : Node} {inlined : String} {ok : Copied → Prop}
    {err : CopyFault → Prop}
    (h : Ends (copier.actions root inlined) { program, memory } (fun copied _ => ok copied)
      (fun e _ => err e)) :
    Ends (copier.copy root inlined) (program, memory) (fun copied _ => ok copied)
      (fun e _ => err e) := by
  unfold Ends copy at *
  dsimp only
  cases hm : copier.actions root inlined { program, memory } <;> rwa [hm] at h

/-- **A copy succeeds exactly on trees that can be copied,** whatever is substituted and
whichever options are set.  Otherwise it is rejected.  The program and the tree have to be
closed, no `invoke` operator may be declared below the root, and the names must not run
out (`hroom`). -/
theorem copy_succeeds_iff {target : FunctionId} {subst : Option ParamSubst}
    {options : CopyOptions} {root : Node} {inlined : String}
    (hclosed : program.Closed) (htarget : program.symbols.Allocated target.symbol)
    (hroot : root.ClosedIn program) (hwithin : ∀ s ∈ subst, s.Within program.pool)
    (hinvoke : ∀ f : FunctionId, f.symbol ∈ Node.declaredBy root.descendants →
      program.symbols.isInvoke f = false)
    (hroom : ∀ e s', (ofParams target subst options).copy root inlined (program, memory) =
      .error e s' → ∀ full, e ≠ .rejected (.nameCapacity full)) :
    (Succeeds ((ofParams target subst options).copy root inlined) (program, memory) = true ↔
      root.Copyable program.symbols) ∧
    ∀ e s', (ofParams target subst options).copy root inlined (program, memory) = .error e s' →
      ∃ why, e = .rejected why := by
  have hends : Ends ((ofParams target subst options).copy root inlined) (program, memory)
      (fun _ _ => root.Copyable program.symbols)
      (fun e _ => Fails (root.Copyable program.symbols) e) := by
    rw [← Node.lawful_iff_copyable hinvoke]
    exact copy_ends ((actions_account options inlined memory hclosed htarget hroot hwithin).imp
      (fun _ _ h => h.1) fun _ _ h => h)
  cases hcopy : (ofParams target subst options).copy root inlined (program, memory) with
  | ok copied s' =>
    exact ⟨iff_of_true (succeeds_iff.2 ⟨copied, s', hcopy⟩) (hends.ok_of_eq hcopy), nofun⟩
  | error e s' =>
    rcases hends.err_of_eq hcopy with ⟨full, rfl⟩ | ⟨hnot, hwhy⟩
    · exact absurd rfl (hroom _ s' hcopy full)
    · refine ⟨iff_of_false (fun hok => ?_) hnot, fun e' s'' he => ?_⟩
      · obtain ⟨copied, s'', hok⟩ := succeeds_iff.1 hok
        cases hcopy.symm.trans hok
      · obtain ⟨rfl, -⟩ := EStateM.Result.error.inj he
        exact hwhy

/-- The sample tree is copied, so it can be. -/
theorem sampleTree_copyable :
    Succeeds ((ofParams ⟨0⟩ (some sampleSubst) {}).copy sampleTree "block")
        (sampleProgram, ()) = true ∧
      sampleTree.Copyable sampleProgram.symbols := by
  have hok : Succeeds ((ofParams ⟨0⟩ (some sampleSubst) {}).copy sampleTree "block")
      (sampleProgram, ()) = true := by decide +kernel
  have hdeclared : Node.declaredBy sampleTree.descendants =
      [⟨.cls, 0⟩, ⟨.ctor, 0⟩, ⟨.fn, 1⟩, ⟨.var, 0⟩] := by decide +kernel
  refine ⟨hok, (copy_succeeds_iff (by decide +kernel) (by decide +kernel) (by decide +kernel)
    (by decide +kernel) (fun f hf => ?_) fun e s' he => ?_).1.1 hok⟩
  · obtain rfl : f = ⟨1⟩ := by
      rw [hdeclared] at hf
      exact SymbolId.symbol_inj.1 (by simpa [SymbolId.symbol] using hf)
    decide +kernel
  · obtain ⟨copied, s, hcopied⟩ := succeeds_iff.1 hok
    cases hcopied.symm.trans he

end Copier

end Graft
