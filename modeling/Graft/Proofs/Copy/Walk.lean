/-
# The first pass, node by node

`CopyState.Account` says what a state has to do with the nodes met so far: the symbols
that have copies are those that the nodes bring, and the copy of a callable lists the
copies of its parameters.  Every node keeps the account and gets what it needs, or the
pass fails; so a pass succeeds exactly on lawful trees
(`CopyJob.Over.accounts_copyDeclarations`).
-/

import Graft.Proofs.Copy.Lawful

namespace Graft

variable {σ : Type}

/-- What holds of a state when the first pass has met the nodes `met`. -/
structure CopyState.Account (s : CopyState σ) (program : Program) (met : List Node) : Prop where
  old : s.Over program
  keys : ∀ a, a ∈ s.map.keys ↔ a ∈ Node.bringsAll program.symbols met
  lists : ∀ callable : Callable, callable.symbol ∈ s.map.keys →
    s.ListsParams program.symbols callable

namespace Node

variable {table : SymbolTable} {met : List Node}

/-- Two lists of nodes bring what the first brings, and then what the second does. -/
theorem bringsAll_append (met met' : List Node) :
    bringsAll table (met ++ met') = bringsAll table met ++ bringsAll table met' :=
  List.flatMap_append

/-- One node brings what it brings. -/
theorem bringsAll_singleton (n : Node) : bringsAll table [n] = n.brings table :=
  List.flatMap_singleton ..

/-- With a callable come its parameters. -/
theorem withParams_subset_brings {n : Node} {callable : Callable}
    (h : callable.symbol ∈ n.brings table) : table.withParams callable ⊆ n.brings table := by
  cases n with
  | functionDecl | constructorDecl =>
    obtain rfl := SymbolTable.mem_withParams.1 h
    exact List.Subset.refl _
  | call span origin ty callee =>
    cases callee with
    | fn callee =>
      rw [brings] at h ⊢
      split at h
      · rename_i hi
        obtain rfl := SymbolTable.mem_withParams.1 h
        rw [if_pos hi]
        exact List.Subset.refl _
      · cases h
    | ctor callee => cases h
  | classDecl | variableDecl =>
    exact absurd (List.mem_singleton.1 h) (callable.symbol_ne (by decide) (by decide) _)
  | callableRef | returnFrom | getValue | setVariable | block | const | «when» | whileLoop
  | typeOp => cases h

/-- What brings a callable brings its parameters too. -/
theorem withParams_subset_bringsAll {callable : Callable}
    (h : callable.symbol ∈ bringsAll table met) :
    table.withParams callable ⊆ bringsAll table met := by
  obtain ⟨n, hn, hc⟩ := List.mem_flatMap.1 h
  exact fun a ha => List.mem_flatMap.2 ⟨n, hn, withParams_subset_brings hc ha⟩

end Node

namespace CopyState

variable {s s' : CopyState σ} {program : Program} {met : List Node} {keys : List Symbol}

namespace Account

/-- A node is accounted for when what it brings was given copies. -/
theorem gains (h : s.Account program met) {n : Node}
    (hg : s.Gains s' (n.brings program.symbols))
    (hl : ∀ callable : Callable, callable.symbol ∈ n.brings program.symbols →
      s'.ListsParams program.symbols callable) : s'.Account program (met ++ [n]) where
  old := h.old.gains hg
  keys a := by
    rw [hg.gained, h.keys, Node.bringsAll_append, Node.bringsAll_singleton, List.mem_append]
  lists callable hc := by
    rcases (hg.gained _).1 hc with hc | hc
    · refine (h.lists callable hc).gains hg fun a ha => (h.keys a).2 ?_
      exact Node.withParams_subset_bringsAll ((h.keys _).1 hc) ha
    · exact hl callable hc

/-- A node that brings nothing new is accounted for as it is. -/
theorem same (h : s.Account program met) {n : Node}
    (hn : ∀ a ∈ n.brings program.symbols, a ∈ s.map.keys) : s.Account program (met ++ [n]) where
  old := h.old
  keys a := by
    rw [Node.bringsAll_append, Node.bringsAll_singleton, List.mem_append, ← h.keys]
    exact ⟨.inl, fun ha => ha.elim id (hn a)⟩
  lists := h.lists

/-- Symbols are new to the copies just when they are new to the nodes met. -/
theorem fresh_iff (h : s.Account program met) :
    s.Fresh keys ↔ Node.Unmet program.symbols met keys := by
  constructor
  · rintro ⟨hnodup, hcopied⟩
    exact ⟨hnodup, fun a ha hm => hcopied a ha ((h.keys a).2 hm)⟩
  · rintro ⟨hnodup, hmet⟩
    exact ⟨hnodup, fun a ha hk => hmet a ha ((h.keys a).1 hk)⟩

end Account

/-- The copy of a class may be completed: no list of parameters is concerned. -/
theorem Account.complete (h : s.Account program met) {copy : ClassId}
    (hcopy : ¬ program.symbols.Allocated copy.symbol) (f : ClassRecord → ClassRecord) :
    (s.withSymbols (s.program.symbols.modify copy f)).Account program met where
  old := ⟨h.old.symbols.modify hcopy f, h.old.pool⟩
  keys := h.keys
  lists callable hc := by
    have hlist := h.lists callable hc
    cases callable <;> exact hlist

end CopyState

namespace CopyJob

open CopyM CopyState Node

variable {job : CopyJob σ} {program : Program} {subst : Option ParamSubst} {s : CopyState σ}
  {met : List Node}

/-- A call gives its callee a copy, with the parameters, if the callee is an `invoke`
operator that was not met before. -/
theorem Over.invoke_account (h : job.Over program subst) (hs : s.Account program met)
    {span origin ty callee typeArgs superClass dispatch extension args}
    (halloc : program.symbols.Allocated (SymbolId.symbol (k := .fn) callee)) :
    Ends (job.mintOwn (.call span origin ty (.fn callee) typeArgs superClass dispatch extension
        args)) s
      (fun _ s' => Admits program.symbols met (.call span origin ty (.fn callee) typeArgs
          superClass dispatch extension args) ∧
        s'.Account program (met ++ [.call span origin ty (.fn callee) typeArgs superClass dispatch
          extension args]))
      (fun e _ => Fails (Admits program.symbols met (.call span origin ty (.fn callee) typeArgs
        superClass dispatch extension args)) e) := by
  obtain ⟨r, hr⟩ := SymbolTable.allocated_iff.1 halloc
  have hinvoke := SymbolTable.isInvoke_of_get? hr
  refine Ends.bind (Ends.of_eq_ok (record_over hs.old hr) ?_)
  refine Ends.bind (Ends.of_eq_ok (show copies s = .ok s.map s from rfl) ?_)
  split
  · rename_i hmint
    obtain ⟨hi, hnot⟩ := Bool.and_eq_true_iff.1 hmint
    have hnot : callee.symbol ∉ s.map.keys := fun hk => by
      rw [CopyMap.contains_iff.2 hk] at hnot
      cases hnot
    have hbrings : brings program.symbols (.call span origin ty (.fn callee) typeArgs
        superClass dispatch extension args) = program.symbols.withParams (.fn callee) := by
      rw [brings, hinvoke, if_pos hi]
    have hinvokes := h.mintInvoke_ends hs.old halloc
    rw [hs.fresh_iff] at hinvokes
    refine hinvokes.imp ?_ fun _ _ hfail => hfail.imp fun hadmits => ?_
    · rintro - s' ⟨hunmet, hg, hlist, -⟩
      rw [← hbrings] at hg
      refine ⟨fun _ _ => hunmet, hs.gains hg fun c hc => ?_⟩
      rw [hbrings] at hc
      exact SymbolTable.mem_withParams.1 hc ▸ hlist
    · exact hadmits (hinvoke.trans hi) fun hb => hnot ((hs.keys _).2 hb)
  · rename_i hskip
    -- the callee is no `invoke`, or it was met before with its parameters
    by_cases hi : r.isTypeInvoke = true
    · have hkey : (Callable.fn callee).symbol ∈ s.map.keys := by
        by_contra hk
        refine hskip (Bool.and_eq_true_iff.2 ⟨hi, ?_⟩)
        rw [Bool.not_eq_true', ← Bool.not_eq_true, CopyMap.contains_iff]
        exact hk
      refine ⟨fun _ hnot => absurd ((hs.keys _).1 hkey) hnot, hs.same fun a ha => ?_⟩
      rw [brings, hinvoke, if_pos hi] at ha
      exact (hs.keys a).2 (withParams_subset_bringsAll ((hs.keys _).1 hkey) ha)
    · have hnone : program.symbols.isInvoke callee ≠ true := hinvoke ▸ hi
      refine ⟨fun hyes => absurd hyes hnone, hs.same fun a ha => ?_⟩
      rw [brings, if_neg hnone] at ha
      cases ha

/-- A node other than a class gets what it needs and is accounted for, before anything
below it is met. -/
theorem Over.mintOwn_account (h : job.Over program subst) (hs : s.Account program met) {n : Node}
    (hn : n.KnownTo program)
    (hclass : ∀ span origin symbol members, n ≠ .classDecl span origin symbol members) :
    Ends (job.mintOwn n) s
      (fun _ s' => Admits program.symbols met n ∧ s'.Account program (met ++ [n]))
      (fun e _ => Fails (Admits program.symbols met n) e) := by
  have nothing : n.brings program.symbols = [] → s.Account program (met ++ [n]) := fun hb =>
    hs.same fun a ha => by
      rw [hb] at ha
      cases ha
  cases n with
  | classDecl span origin symbol members => exact (hclass _ _ _ _ rfl).elim
  | functionDecl span origin symbol body =>
    have hmint := h.mintFunction_ends hs.old (hn.mention (.head _))
    rw [hs.fresh_iff] at hmint
    refine hmint.imp ?_ fun _ _ h => h
    rintro - s' ⟨hadmits, hg, hlist, -⟩
    exact ⟨hadmits, hs.gains hg fun c hc => SymbolTable.mem_withParams.1 hc ▸ hlist⟩
  | constructorDecl span origin symbol body =>
    obtain ⟨r, hr⟩ := SymbolTable.allocated_iff.1 (hn.mention (.head _))
    have hmint := h.mintConstructor_ends hs.old hr
    rw [hs.fresh_iff, hs.keys] at hmint
    refine hmint.imp ?_ fun _ _ h => h.imp ?_
    · rintro - s' ⟨⟨hcls, hadmits⟩, hg, hlist, -⟩
      refine ⟨⟨fun r' hr' => ?_, hadmits⟩, hs.gains hg fun c hc =>
        SymbolTable.mem_withParams.1 hc ▸ hlist⟩
      obtain rfl : r = r' := Option.some.inj (hr.symm.trans hr')
      exact hcls
    · exact fun hadmits => ⟨hadmits.1 r hr, hadmits.2⟩
  | variableDecl span origin symbol init =>
    have hmint := h.mintVariable_ends hs.old (hn.mention (.head _))
    rw [hs.fresh_iff] at hmint
    refine hmint.imp ?_ fun _ _ h => h
    rintro - s' ⟨hadmits, hg, -⟩
    refine ⟨hadmits, hs.gains hg fun c hc => ?_⟩
    exact absurd (List.mem_singleton.1 hc) (c.symbol_ne (by decide) (by decide) _)
  | call span origin ty callee typeArgs superClass dispatch extension args =>
    cases callee with
    | ctor callee => exact ⟨True.intro, nothing rfl⟩
    | fn callee => exact h.invoke_account hs (hn.mention (.head _))
  | callableRef | returnFrom | getValue | setVariable | block | const | «when» | whileLoop
  | typeOp => exact ⟨True.intro, nothing rfl⟩

/-- Run from a state that accounts for the nodes met before, an action that copies the
declarations of some trees accounts for their nodes, or it fails because the trees are
not lawful. -/
def Accounts (program : Program) (m : CopyM σ Unit) (ns : List Node) : Prop :=
  ∀ met (s : CopyState σ), s.Account program met →
    Ends m s
      (fun _ s' => Lawful program.symbols met ns ∧ s'.Account program (met ++ preorder ns))
      (fun e _ => Fails (Lawful program.symbols met ns) e)

/-- Trees are accounted for one after the other. -/
theorem accounts_forM {ns : List Node}
    (h : ∀ n ∈ ns, Accounts program (job.copyDeclarations n) [n]) :
    Accounts program (ForM.forM ns job.copyDeclarations) ns := by
  intro met s hs
  refine Ends.forM (I := fun done (s' : CopyState σ) => Lawful program.symbols met done ∧
    s'.Account program (met ++ preorder done)) ns ⟨lawful_nil, ?_⟩ ?_
  · rwa [show preorder [] = [] from rfl, List.append_nil]
  · rintro done n rest hsplit s₁ ⟨hdone, hs₁⟩
    refine (h n (hsplit ▸ List.mem_append_right _ (.head _)) _ s₁ hs₁).imp ?_ ?_
    · rintro - s₂ ⟨hn, hs₂⟩
      rw [List.append_assoc, ← preorder_append] at hs₂
      exact ⟨lawful_append.2 ⟨hdone, hn⟩, hs₂⟩
    · intro e s₂ hfail
      refine hfail.imp fun hall => ?_
      rw [hsplit, List.append_cons, lawful_append, lawful_append] at hall
      exact hall.1.2

/-- **The first pass succeeds exactly on lawful trees,** and then accounts for all their
nodes. -/
theorem Over.accounts_copyDeclarations (h : job.Over program subst) (n : Node)
    (hn : ∀ m ∈ n :: n.descendants, m.KnownTo program) :
    Accounts program (job.copyDeclarations n) [n] := by
  induction n using Node.induction_children with
  | step n ih =>
    have below : Accounts program (ForM.forM n.children job.copyDeclarations) n.children :=
      accounts_forM fun c hc => ih c hc fun m hm => hn m (.tail _ (descendants_of_child hc hm))
    intro met s hs
    have hmet : met ++ n :: n.descendants = (met ++ [n]) ++ preorder n.children := by
      rw [preorder_children, List.append_assoc, List.singleton_append]
    rw [copyDeclarations_eq, lawful_singleton, preorder_singleton, hmet]
    split
    · rename_i span origin cls members
      obtain ⟨r, hr⟩ := SymbolTable.allocated_iff.1 ((hn _ (.head _)).mention (.head _))
      have hopen := h.openClass_ends hs.old hr
      rw [hs.fresh_iff] at hopen
      refine Ends.bind (hopen.imp (fun opened s₁ ⟨hadmits, hg, hopened, hnew, _⟩ => ?_)
        fun _ _ hfail => hfail.imp And.left)
      have hs₁ : s₁.Account program (met ++ [.classDecl span origin cls members]) := by
        refine hs.gains hg fun c hc => ?_
        exact absurd (List.mem_singleton.1 hc) (c.symbol_ne (by decide) (by decide) _)
      refine Ends.bind ((below _ s₁ hs₁).imp (fun _ s₂ ⟨hbelow, hs₂⟩ => ?_)
        fun _ _ hfail => hfail.imp fun hall => hall.2.1)
      have hclose := closeClass_ends cls opened.1 opened.2 s₂
      rw [hopened] at hclose ⊢
      refine hclose.imp ?_ fun _ _ hfail => hfail.imp fun hall c hc => (hs₂.keys _).2 ?_
      · rintro - s₃ ⟨hclosed, rfl⟩
        refine ⟨⟨hadmits, hbelow, fun r' hr' c hc => ?_⟩, hs₂.complete ?_ _⟩
        · obtain rfl : r = r' := Option.some.inj (hr.symm.trans hr')
          exact (hs₂.keys _).1 (hclosed c hc)
        · exact fun ha => hnew (hs.old.symbols.allocated ha)
      · exact hall.2.2 r hr c hc
    · rename_i hclass
      refine Ends.bind ((h.mintOwn_account hs (hn n (.head _)) ?_).imp
        (fun _ s₁ ⟨hadmits, hs₁⟩ => ?_) fun _ _ hfail => hfail.imp And.left)
      · exact hclass
      · have hcloses : ∀ met, Closes program.symbols met n := by
          intro met
          cases n with
          | classDecl => exact (hclass _ _ _ _ rfl).elim
          | _ => trivial
        refine (below _ s₁ hs₁).imp (fun _ s₂ ⟨hbelow, hs₂⟩ => ?_) fun _ _ hfail => ?_
        · exact ⟨⟨hadmits, hbelow, hcloses _⟩, hs₂⟩
        · exact hfail.imp fun hall => hall.2.1

end CopyJob

end Graft
