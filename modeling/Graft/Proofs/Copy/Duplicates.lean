/-
# When a copy finds a declaration twice

A copy stops with `declaredTwice` when it would give a second copy to a symbol.  The survey of the
tree tells when this happens (`Node.tells_survey`): a node declares what a node before it has
brought.  Where no two callables list the same parameter, that node declares the symbol, too, or
calls it as an `invoke` operator (`Copier.copy_declaredTwice`).

In the second case the tree need not repeat any declaration.  An `invoke` operator that is called
and then declared is rejected, while one that is declared and then called is not: only the call
looks whether there is a copy already (`Copier.declaredTwice_once`).
-/

import Graft.Proofs.Copy.Carry
import Graft.Proofs.Copy.Survey
import Mathlib.Data.List.Pairwise

namespace Graft

variable {σ : Type}

/-! ### Parameters that are listed once -/

namespace SymbolTable

/-- The functions and constructors of a table. -/
def callables (table : SymbolTable) : List Callable :=
  (List.range table.functions.size).map (fun i => .fn ⟨i⟩) ++
    (List.range table.constructors.size).map fun i => .ctor ⟨i⟩

/-- The parameters that they list, one callable after the other. -/
def listedParams (table : SymbolTable) : List ParamId := table.callables.flatMap table.paramsOf

variable {table : SymbolTable}

/-- What has parameters is a callable of the table. -/
theorem mem_callables_of_param {c : Callable} {p : ParamId} (hp : p ∈ table.paramsOf c) :
    c ∈ table.callables := by
  have halloc : table.Allocated c.symbol := by
    rw [paramsOf] at hp
    split at hp
    · exact allocated_of_paramList ‹_›
    · cases hp
  rw [callables, List.mem_append, List.mem_map, List.mem_map]
  cases c with
  | fn id => exact .inl ⟨id.index, List.mem_range.2 halloc, rfl⟩
  | ctor id => exact .inr ⟨id.index, List.mem_range.2 halloc, rfl⟩

/-- No callable lists a parameter twice. -/
theorem paramsOf_nodup (h : table.listedParams.Nodup) (c : Callable) :
    (table.paramsOf c).Nodup := by
  by_cases hc : c ∈ table.callables
  · exact (List.nodup_flatMap.1 h).1 c hc
  · rw [List.eq_nil_iff_forall_not_mem.2 fun p hp => hc (mem_callables_of_param hp)]
    exact .nil

/-- No two callables list the same parameter. -/
theorem callable_eq_of_param (h : table.listedParams.Nodup) {c c' : Callable} {p : ParamId}
    (hp : p ∈ table.paramsOf c) (hp' : p ∈ table.paramsOf c') : c = c' := by
  have hsymm : Std.Symm (Function.onFun List.Disjoint table.paramsOf) := ⟨fun _ _ hd => hd.symm⟩
  by_contra hne
  exact (List.nodup_flatMap.1 h).2.forall (mem_callables_of_param hp) (mem_callables_of_param hp')
    hne hp hp'

/-- So a callable and its parameters are different symbols. -/
theorem withParams_nodup (h : table.listedParams.Nodup) (c : Callable) :
    (table.withParams c).Nodup :=
  have hunmet : Node.Unmet table [] (table.withParams c) :=
    Node.unmet_withParams.2 ⟨⟨paramsOf_nodup h c, fun _ _ => List.not_mem_nil⟩, List.not_mem_nil⟩
  hunmet.1

/-- The symbol is the declared one, or a parameter of the callable that this is. -/
def BelongsTo (table : SymbolTable) (a d : Symbol) : Prop :=
  a = d ∨ ∃ callable : Callable, callable.symbol = d ∧ ∃ p ∈ table.paramsOf callable, a = p.symbol

/-- A parameter belongs to its callable, and the callable to itself. -/
theorem belongsTo_callable {c : Callable} {a : Symbol} (h : a ∈ table.withParams c) :
    table.BelongsTo a c.symbol :=
  (mem_withParams_iff.1 h).symm.imp id fun hp => ⟨c, rfl, hp⟩

end SymbolTable

/-! ### What the survey tells -/

namespace Survey

open Node (bringsAll bringsAll_append bringsAll_singleton)

variable {table : SymbolTable} {met : List Node} {keys keys' : List Symbol} {n : Node}

/-- The keys are the symbols that the nodes bring. -/
def Met (table : SymbolTable) (met : List Node) (keys : List Symbol) : Prop :=
  ∀ a, a ∈ keys ↔ a ∈ bringsAll table met

/-- Different symbols are claimed one after the other if none of them is a key. -/
theorem claimAll (as : List Symbol) (hnodup : as.Nodup) (keys : List Symbol) :
    match as.foldlM claim keys with
    | .ok keys' => (∀ a ∈ as, a ∉ keys) ∧ ∀ b, b ∈ keys' ↔ b ∈ keys ∨ b ∈ as
    | .error why => ∃ a ∈ as, a ∈ keys ∧ why = .declaredTwice a := by
  induction as generalizing keys with
  | nil => exact ⟨nofun, fun b => by simp⟩
  | cons a as ih =>
    obtain ⟨hnew, hnodup⟩ := List.nodup_cons.1 hnodup
    rw [List.foldlM_cons, claim]
    by_cases ha : a ∈ keys
    · rw [if_pos ha]
      exact ⟨a, .head _, ha, rfl⟩
    · rw [if_neg ha]
      have hrest := ih hnodup (a :: keys)
      show match as.foldlM claim (a :: keys) with
        | .ok keys' => _
        | .error why => _
      cases hfold : as.foldlM claim (a :: keys) with
      | ok keys' =>
        rw [hfold] at hrest
        obtain ⟨hall, hkeys⟩ := hrest
        refine ⟨List.forall_mem_cons.2 ⟨ha, fun b hb hbk => hall b hb (.tail _ hbk)⟩,
          fun b => ?_⟩
        rw [hkeys, List.mem_cons, List.mem_cons, or_assoc, or_left_comm]
      | error why =>
        rw [hfold] at hrest
        obtain ⟨b, hb, hbk, rfl⟩ := hrest
        refine ⟨b, .tail _ hb, (List.mem_cons.1 hbk).resolve_left ?_, rfl⟩
        rintro rfl
        exact hnew hb

/-- A node declares something that was brought before it, and so the symbol has a copy. -/
def Repeats (table : SymbolTable) (met : List Node) (n : Node) (a : Symbol) : Prop :=
  ∃ d, n.declared? = some d ∧ d ∈ bringsAll table met ∧ table.BelongsTo a d

/-- What the survey of some nodes, met after others, tells.  If it gets through, it has the symbols
that all of them bring, and no node has declared anything that was brought before it.  If it finds
a symbol twice, there is a node that has. -/
def Tells (table : SymbolTable) (met ns : List Node) : Except Rejection (List Symbol) → Prop
  | .ok keys => Met table (met ++ ns) keys ∧ ∀ before n after, ns = before ++ n :: after →
      ∀ d, n.declared? = some d → d ∉ bringsAll table (met ++ before)
  | .error why => ∀ a, why = .declaredTwice a → ∃ before n after, ns = before ++ n :: after ∧
      Repeats table (met ++ before) n a

/-- The survey of no nodes tells nothing new. -/
theorem tells_nil (h : Met table met keys) : Tells table met [] (.ok keys) := by
  refine ⟨by rwa [List.append_nil], fun before n after hsplit => ?_⟩
  cases before <;> cases hsplit

/-- A survey that goes on tells of the nodes that come after, too. -/
theorem Tells.bind {ns ms : List Node} {result : Except Rejection (List Symbol)}
    {g : List Symbol → Except Rejection (List Symbol)} (h : Tells table met ns result)
    (hg : ∀ keys, Met table (met ++ ns) keys → Tells table (met ++ ns) ms (g keys)) :
    Tells table met (ns ++ ms) (result >>= g) := by
  cases result with
  | error why =>
    intro a ha
    obtain ⟨before, n, after, rfl, hrepeats⟩ := h a ha
    exact ⟨before, n, after ++ ms, by simp, hrepeats⟩
  | ok keys =>
    obtain ⟨hmet, hfirst⟩ := h
    have hrest := hg keys hmet
    show Tells table met (ns ++ ms) (g keys)
    cases hresult : g keys with
    | error why =>
      rw [hresult] at hrest
      intro a ha
      obtain ⟨before, n, after, rfl, hrepeats⟩ := hrest a ha
      exact ⟨ns ++ before, n, after, by simp, by rwa [← List.append_assoc]⟩
    | ok keys' =>
      rw [hresult] at hrest
      obtain ⟨hmet', hsecond⟩ := hrest
      refine ⟨by rwa [← List.append_assoc], fun before n after hsplit d hd => ?_⟩
      rcases Node.split_append hsplit with ⟨after', rfl, -⟩ | ⟨before', rfl, rfl⟩
      · exact hfirst before n after' rfl d hd
      · rw [← List.append_assoc]
        exact hsecond before' n after rfl d hd

/-- A node is all that comes after. -/
theorem tells_singleton {result : Except Rejection (List Symbol)}
    (hok : ∀ keys, result = .ok keys → Met table (met ++ [n]) keys ∧
      ∀ d, n.declared? = some d → d ∉ bringsAll table met)
    (herror : ∀ a, result = .error (.declaredTwice a) → Repeats table met n a) :
    Tells table met [n] result := by
  cases result with
  | ok keys =>
    obtain ⟨hmet, hnew⟩ := hok keys rfl
    refine ⟨hmet, fun before m after hsplit d hd => ?_⟩
    rcases List.singleton_eq_append_iff.1 hsplit with ⟨rfl, hm⟩ | ⟨-, hm⟩
    · obtain ⟨rfl, -⟩ := List.cons.inj hm
      rw [List.append_nil]
      exact hnew d hd
    · cases hm
  | error why =>
    intro a ha
    refine ⟨[], n, [], rfl, ?_⟩
    rw [List.append_nil]
    exact herror a (ha ▸ rfl)

/-- Where a node declares `d` and claims some symbols that belong to it, and these have been
brought only if `d` has. -/
theorem tells_claims {as : List Symbol} {d : Symbol} (hmet : Met table met keys)
    (hdeclared : n.declared? = some d) (hbrings : n.brings table = as) (hnodup : as.Nodup)
    (hd : d ∈ as) (hbelongs : ∀ a ∈ as, table.BelongsTo a d)
    (hbrought : ∀ a ∈ as, a ∈ bringsAll table met → d ∈ bringsAll table met) :
    Tells table met [n] (as.foldlM claim keys) := by
  have hclaims := claimAll as hnodup keys
  refine tells_singleton (fun keys' hkeys => ?_) fun a ha => ?_
  · rw [hkeys] at hclaims
    obtain ⟨hnew, hall⟩ := hclaims
    refine ⟨fun b => ?_, fun d' hd' => ?_⟩
    · rw [hall, hmet, bringsAll_append, bringsAll_singleton, hbrings, List.mem_append]
    · obtain rfl := Option.some.inj (hdeclared.symm.trans hd')
      exact mt (hmet d).2 (hnew d hd)
  · rw [ha] at hclaims
    obtain ⟨b, hb, hkey, hwhy⟩ := hclaims
    obtain rfl := Rejection.declaredTwice.inj hwhy
    exact ⟨d, hdeclared, hbrought a hb ((hmet a).1 hkey), hbelongs a hb⟩

/-- A callable is brought with each of its parameters. -/
theorem callable_brought (hlisted : table.listedParams.Nodup) {c : Callable} {a : Symbol}
    (ha : a ∈ table.withParams c) (hbrought : a ∈ bringsAll table met) :
    c.symbol ∈ bringsAll table met := by
  rcases SymbolTable.mem_withParams_iff.1 ha with ⟨p, hp, rfl⟩ | rfl
  · obtain ⟨c', hc', hp'⟩ :=
      Node.exists_callable_of_param (Node.param_mem_bringsAll.1 hbrought)
    rwa [SymbolTable.callable_eq_of_param hlisted hp hp']
  · exact hbrought

/-- A callable is declared after its parameters. -/
theorem tells_callable (hlisted : table.listedParams.Nodup) (hmet : Met table met keys)
    {c : Callable} (hc : n.callable? = some c) (hbrings : n.brings table = table.withParams c) :
    Tells table met [n] (callable table keys c) := by
  rw [callable]
  split
  · exact tells_claims hmet (Node.declared?_of_callable? hc) hbrings
      (SymbolTable.withParams_nodup hlisted c) (SymbolTable.mem_withParams.2 rfl)
      (fun a ha => SymbolTable.belongsTo_callable ha) fun a ha => callable_brought hlisted ha
  · rintro a ⟨⟩

/-- A symbol that is declared alone. -/
theorem tells_claim (hmet : Met table met keys) {d : Symbol} (hdeclared : n.declared? = some d)
    (hbrings : n.brings table = [d]) : Tells table met [n] (claim keys d) := by
  have hone := tells_claims hmet hdeclared hbrings (List.nodup_singleton d) (.head _)
    (fun a ha => .inl (List.mem_singleton.1 ha)) fun a ha h => List.mem_singleton.1 ha ▸ h
  rw [List.foldlM_cons] at hone
  exact bind_pure (claim keys d) ▸ hone

/-- Where nothing is asked, nothing is brought. -/
theorem tells_ok (hmet : Met table met keys) (hdeclared : n.declared? = none)
    (hbrings : n.brings table ⊆ bringsAll table met) : Tells table met [n] (.ok keys) := by
  refine tells_singleton ?_ nofun
  rintro _ ⟨⟩
  refine ⟨fun b => ?_, fun d hd => absurd (hdeclared.symm.trans hd) nofun⟩
  rw [hmet, bringsAll_append, bringsAll_singleton, List.mem_append]
  exact ⟨.inl, fun h => h.elim id fun hb => hbrings hb⟩

/-- An `invoke` operator is given a copy at the first call, unless it has one. -/
theorem tells_call (hlisted : table.listedParams.Nodup) (hmet : Met table met keys)
    {span origin ty callee typeArgs superClass dispatch extension args} :
    let n : Node :=
      .call span origin ty (.fn callee) typeArgs superClass dispatch extension args
    Tells table met [n] (enter table keys n) := by
  intro n
  have hbrings : n.brings table =
      if table.isInvoke callee then table.withParams (.fn callee) else [] := rfl
  rw [enter]
  split
  · rename_i hnew
    rw [if_pos hnew.1] at hbrings
    have hnot : callee.symbol ∉ bringsAll table met := mt (hmet _).2 hnew.2
    have hclaims := claimAll _ (SymbolTable.withParams_nodup hlisted (.fn callee)) keys
    refine tells_singleton (fun keys' hkeys => ?_) fun a ha => ?_
    · rw [hkeys] at hclaims
      refine ⟨fun b => ?_, ?_⟩
      · rw [hclaims.2, hmet, bringsAll_append, bringsAll_singleton, hbrings, List.mem_append]
      · rintro d ⟨⟩
    · rw [ha] at hclaims
      obtain ⟨b, hb, hkey, -⟩ := hclaims
      exact absurd (callable_brought hlisted hb ((hmet b).1 hkey)) hnot
  · rename_i hold
    refine tells_ok hmet rfl ?_
    rw [hbrings]
    split
    · rename_i hinvoke
      have hkey : Callable.symbol (.fn callee) ∈ keys := by
        by_contra hnot
        exact hold ⟨hinvoke, hnot⟩
      exact Node.withParams_subset_bringsAll ((hmet _).1 hkey)
    · exact List.nil_subset _

/-- What entering a node tells. -/
theorem tells_enter (hlisted : table.listedParams.Nodup) (hmet : Met table met keys) (n : Node) :
    Tells table met [n] (enter table keys n) := by
  cases n with
  | classDecl | variableDecl => exact tells_claim hmet rfl rfl
  | functionDecl => exact tells_callable hlisted hmet rfl rfl
  | constructorDecl =>
    rw [enter]
    split
    · exact tells_callable hlisted hmet rfl rfl
    · rintro a ⟨⟩
  | call span origin ty callee =>
    cases callee with
    | fn callee => exact tells_call hlisted hmet
    | ctor callee => exact tells_ok hmet rfl (List.nil_subset _)
  | callableRef | returnFrom | getValue | setVariable | block | const | «when» | whileLoop
  | typeOp => exact tells_ok hmet rfl (List.nil_subset _)

/-- What is asked when a node is left is no declaration. -/
theorem tells_leave (hmet : Met table met keys) (n : Node) :
    Tells table met [] (leave table keys n) := by
  have hlisted : ∀ (cls : ClassId) (cs : List ConstructorId),
      Tells table met [] (cs.foldlM (listed cls) keys) := by
    intro cls cs
    induction cs with
    | nil => exact tells_nil hmet
    | cons c cs ih =>
      rw [List.foldlM_cons, listed]
      split
      · exact ih
      · rintro a ⟨⟩
  cases n with
  | classDecl span origin cls members =>
    rw [leave]
    split
    · exact hlisted _ _
    · exact tells_nil hmet
  | _ => exact tells_nil hmet

end Survey

namespace Node

/-- An `invoke` operator is called before it is declared. -/
def CallsFirst (root : Node) (table : SymbolTable) (f : FunctionId) : Prop :=
  ∃ before n after, root.descendants = before ++ n :: after ∧ n.declared? = some f.symbol ∧
    f ∈ invokedBy table before

open Survey (Met Tells)

variable {table : SymbolTable}

/-- The survey of a list of trees tells the truth if that of each tree does. -/
theorem tells_surveyAll {ns : List Node} (h : ∀ n ∈ ns, ∀ {met keys}, Met table met keys →
      Tells table met (preorder [n]) (n.survey table keys)) {met : List Node} {keys : List Symbol}
    (hmet : Met table met keys) : Tells table met (preorder ns) (surveyAll table ns keys) := by
  induction ns generalizing met keys with
  | nil => exact Survey.tells_nil hmet
  | cons n ns ih =>
    rw [surveyAll, List.foldlM_cons, ← List.singleton_append, preorder_append]
    exact (h n (.head _) hmet).bind fun keys' hmet' =>
      ih (fun m hm => h m (.tail _ hm)) hmet'

/-- **The survey finds a symbol twice only where it is,** node by node. -/
theorem tells_survey (hlisted : table.listedParams.Nodup) (n : Node) {met : List Node}
    {keys : List Symbol} (hmet : Met table met keys) :
    Tells table met (preorder [n]) (n.survey table keys) := by
  induction n using Node.induction_children generalizing met keys with
  | step n ih =>
    have hsplit : preorder [n] = [n] ++ (preorder n.children ++ []) := by
      rw [preorder_singleton, preorder_children, List.append_nil, List.singleton_append]
    rw [survey_eq, hsplit]
    refine (Survey.tells_enter hlisted hmet n).bind fun keys₁ hmet₁ => ?_
    exact (tells_surveyAll (fun c hc => ih c hc) hmet₁).bind fun keys₂ hmet₂ =>
      Survey.tells_leave hmet₂ n

/-- So does the survey of what is below a root. -/
theorem tells_surveyBelow (hlisted : table.listedParams.Nodup) (root : Node) :
    Tells table [] root.descendants (root.surveyBelow table) := by
  rw [← preorder_children]
  exact tells_surveyAll (fun n _ => tells_survey hlisted n) fun _ => Iff.rfl

end Node

/-! ### What a copy says -/

namespace CopyJob

open CopyM

variable {program : Program} {keys : List Symbol} (job : CopyJob σ)

/-- To substitute in type arguments gives no copies and finds nothing twice. -/
theorem follows_substituteArgs (args : Option TypeArguments) :
    Follows program keys (job.substituteArgs args) (.ok keys) fun _ => True := by
  cases args with
  | none => exact Follows.pure trivial
  | some args =>
    refine Follows.after (P := fun _ => True) ?_ fun _ _ => Follows.pure trivial
    refine (Follows.mapM_ok fun entry _ => ?_).after fun _ _ => Follows.pure trivial
    exact (job.follows_substitute entry.2).after fun _ _ => Follows.pure trivial

/-- To point a node at the copies gives no copies and finds nothing twice. -/
theorem follows_resolve (n : Node) :
    Follows program keys (job.resolve n) (.ok keys) fun _ => True := by
  refine follows_copies.after fun map _ => ?_
  cases n with
  | classDecl | functionDecl | constructorDecl | variableDecl | getValue | setVariable |
    whileLoop => exact Follows.pure trivial
  | call =>
    refine (job.follows_substitute _).after fun ty _ => ?_
    exact (job.follows_substituteArgs _).after fun typeArgs _ => Follows.pure trivial
  | callableRef =>
    dsimp only
    split
    · exact Follows.pure trivial
    · refine (job.follows_substitute _).after fun ty _ => ?_
      exact (job.follows_substituteArgs _).after fun typeArgs _ => Follows.pure trivial
  | returnFrom =>
    dsimp only
    split
    · exact Follows.pure trivial
    · exact (job.follows_substitute _).after fun ty _ => Follows.pure trivial
  | block | const | «when» =>
    exact (job.follows_substitute _).after fun ty _ => Follows.pure trivial
  | typeOp =>
    refine (job.follows_substitute _).after fun ty _ => ?_
    exact (job.follows_substitute _).after fun operandTy _ => Follows.pure trivial

/-- The second pass gives no copies and finds nothing twice. -/
theorem follows_redirectReferences (n : Node) :
    Follows program keys (job.redirectReferences n) (.ok keys) fun _ => True := by
  unfold redirectReferences
  induction n using Node.induction_children with
  | step n ih =>
    rw [Node.rebuildChildren_eq, map_eq_pure_bind]
    refine (Follows.mapM_ok fun c hc => ?_).after fun _ _ => Follows.pure trivial
    exact (ih c hc).after fun c' _ => job.follows_resolve c'

end CopyJob

namespace Copier

open CopyJob
open Node (declaredBy invokedBy)

variable {program : Program} {memory : σ} {copier : Copier σ} {root : Node} {inlined : String}

/-- Whatever the copier does to types, it finds twice what the survey finds twice, and it gets
through only where the survey does. -/
theorem copy_explained (copier : Copier σ) (inlined : String) (memory : σ)
    (hclosed : program.Closed) (hroot : root.ClosedIn program) :
    Ends (copier.copy root inlined) (program, memory)
      (fun _ _ => ∃ keys, root.surveyBelow program.symbols = .ok keys)
      (fun e _ => ∀ a, e = .rejected (.declaredTwice a) →
        root.surveyBelow program.symbols = .error (.declaredTwice a)) := by
  refine copy_ends (actions_ends _ (fun _ => ?_) fun _ _ he => nomatch he)
  refine Ends.bind ((follows_firstPass hclosed hroot { program, memory }
    ⟨.refl _, fun a => iff_of_false (CopyMap.not_mem_keys_empty a) nofun⟩).imp ?_ ?_)
  · rintro - s₁ ⟨-, keys, hkeys, hs₁⟩
    refine Ends.bind (((copier.job program inlined).follows_redirectReferences root s₁ hs₁).imp ?_
      ?_)
    · rintro copy s₂ -
      refine Ends.bind (Ends.of_eq_ok (show CopyM.copies s₂ = .ok s₂.map s₂ from rfl) ?_)
      dsimp only
      split
      · split
        · rename_i e hcheck
          -- the check reports nothing but dangling mentions
          rw [CopyMap.check] at hcheck
          split at hcheck <;> cases hcheck
          rintro a ⟨⟩
        · exact ⟨keys, hkeys⟩
      · exact ⟨keys, hkeys⟩
    · rintro e s₂ hexplains a he
      rcases hexplains _ he with ⟨full, hfull⟩ | hwhy
      · cases hfull
      · cases hwhy
  · rintro e s₁ hexplains a he
    rcases hexplains _ he with ⟨full, hfull⟩ | hwhy
    · cases hfull
    · exact hwhy

/-- **When a copy finds a declaration twice.**  In a closed program where each parameter is listed
once, and whatever is done to types, a copy of a closed tree finds a symbol twice only if the symbol
or the callable that lists it is declared by two nodes below the root, or is an `invoke` operator
that is called before it is declared.  And indeed no tree with such an operator has a copy. -/
theorem copy_declaredTwice (hclosed : program.Closed) (hlisted : program.symbols.listedParams.Nodup)
    (hroot : root.ClosedIn program) :
    (∀ a s', copier.copy root inlined (program, memory) = .error (.rejected (.declaredTwice a)) s' →
      ∃ d, program.symbols.BelongsTo a d ∧ (2 ≤ (declaredBy root.descendants).count d ∨
        ∃ f : FunctionId, f.symbol = d ∧ root.CallsFirst program.symbols f)) ∧
    ∀ f, root.CallsFirst program.symbols f →
      ∀ copied s', copier.copy root inlined (program, memory) ≠ .ok copied s' := by
  have hends := copy_explained copier inlined memory hclosed hroot
  have htells := Node.tells_surveyBelow hlisted root
  refine ⟨fun a s' hcopy => ?_, fun f hfirst copied s' hcopy => ?_⟩
  · rw [hends.err_of_eq hcopy a rfl] at htells
    obtain ⟨before, n, after, hsplit, d, hd, hbrought, hbelongs⟩ := htells a rfl
    rw [List.nil_append] at hbrought
    refine ⟨d, hbelongs, ?_⟩
    rcases Node.mem_bringsAll.1 hbrought with hbefore | ⟨f, hf, rfl⟩ | ⟨p, -, rfl⟩
    · refine .inl ?_
      have hone := List.count_pos_iff.2 hbefore
      rw [hsplit, declaredBy, List.filterMap_append, List.count_append,
        List.filterMap_cons_some hd, List.count_cons_self, ← declaredBy]
      omega
    · exact .inr ⟨f, rfl, before, n, after, hsplit, hd, hf⟩
    · exact absurd rfl (Node.declared?_kind hd)
  · obtain ⟨keys, hkeys⟩ := hends.ok_of_eq hcopy
    obtain ⟨before, n, after, hsplit, hd, hf⟩ := hfirst
    rw [hkeys] at htells
    exact htells.2 before n after hsplit _ hd (Node.mem_bringsAll.2 (.inr (.inl ⟨f, hf, rfl⟩)))

/-- A block that calls the `invoke` operator of the sample program and then declares it. -/
def callFirstTree : Node :=
  .block ⟨0, 40⟩ ⟨5⟩ [
    .call ⟨1, 9⟩ .source ⟨9⟩ (.fn ⟨2⟩) none none none none [],
    .functionDecl ⟨10, 20⟩ .source ⟨2⟩ none]

/-- Its copy stops at the parameter of the operator. -/
theorem callFirstTree_declaredTwice :
    ∃ s', (ofParams ⟨0⟩ none {}).copy callFirstTree "block" (sampleProgram, ()) =
      .error (.rejected (.declaredTwice ⟨.param, 2⟩)) s' := by
  have hstops : (match (ofParams ⟨0⟩ none {}).copy callFirstTree "block" (sampleProgram, ()) with
      | .ok _ _ => false
      | .error e _ => decide (e = .rejected (.declaredTwice ⟨.param, 2⟩))) = true := by
    decide +kernel
  cases hcopy : (ofParams ⟨0⟩ none {}).copy callFirstTree "block" (sampleProgram, ()) with
  | ok copied s' => simp [hcopy] at hstops
  | error e s' =>
    obtain rfl : e = .rejected (.declaredTwice ⟨.param, 2⟩) := by simpa [hcopy] using hstops
    exact ⟨s', rfl⟩

/-- The block has no copy, though it declares one symbol only. -/
theorem copy_declaredTwice_sample :
    (declaredBy callFirstTree.descendants).Nodup ∧
      callFirstTree.CallsFirst sampleProgram.symbols ⟨2⟩ ∧
      ∃ a s', (ofParams ⟨0⟩ none {}).copy callFirstTree "block" (sampleProgram, ()) =
        .error (.rejected (.declaredTwice a)) s' ∧
        ∃ d, sampleProgram.symbols.BelongsTo a d ∧
          (2 ≤ (declaredBy callFirstTree.descendants).count d ∨
            ∃ f : FunctionId, f.symbol = d ∧ callFirstTree.CallsFirst sampleProgram.symbols f) := by
  obtain ⟨s', hcopy⟩ := callFirstTree_declaredTwice
  refine ⟨by decide +kernel, ⟨callFirstTree.descendants.take 1,
    .functionDecl ⟨10, 20⟩ .source ⟨2⟩ none, [], by decide +kernel, rfl, by decide +kernel⟩, _, s',
    hcopy, ?_⟩
  exact (copy_declaredTwice (by decide +kernel) (by decide +kernel) (by decide +kernel)).1 _ s'
    hcopy

/-- **A declaration that is found twice need not be there twice.** -/
theorem declaredTwice_once :
    ¬ ∀ (program : Program) (copier : Copier Unit) (root : Node) (inlined : String) (a : Symbol)
        (s' : Program × Unit),
      program.Closed → program.symbols.listedParams.Nodup → root.ClosedIn program →
      copier.copy root inlined (program, ()) = .error (.rejected (.declaredTwice a)) s' →
      ∃ d, program.symbols.BelongsTo a d ∧ 2 ≤ (declaredBy root.descendants).count d := by
  intro hall
  obtain ⟨s', hcopy⟩ := callFirstTree_declaredTwice
  obtain ⟨d, -, htwice⟩ := hall sampleProgram (ofParams ⟨0⟩ none {}) callFirstTree "block" _ s'
    (by decide +kernel) (by decide +kernel) (by decide +kernel) hcopy
  have hnodup : (declaredBy callFirstTree.descendants).Nodup := by decide +kernel
  exact absurd htwice (Nat.not_le_of_lt
    (Nat.lt_succ_of_le (List.nodup_iff_count_le_one.1 hnodup d)))

end Copier

end Graft
