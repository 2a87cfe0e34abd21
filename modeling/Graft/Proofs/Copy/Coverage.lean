/-
# The symbols of a copy

A copy that succeeds over a closed program has given copies to exactly the symbols that
the nodes below the root bring, and what it has added to the table are these copies and
nothing else, kind by kind (`Copier.copy_covers`).  So an added symbol that occurs in the
copied tree is accounted for in it: it is declared there, or a parameter of a callable
declared there, or it is or comes with the copy of an `invoke` operator.
-/

import Graft.Proofs.Copy.Soundness
import Mathlib.Data.Set.Operations

namespace Graft

variable {σ : Type}

namespace Node

variable {map : CopyMap} {τ : TypeId → TypeId}

/-- What a node declares does not depend on its children. -/
theorem declared?_withChildren (n : Node) (cs : List Node) :
    (n.withChildren cs).declared? = n.declared? := by
  cases n <;> rfl

/-- The callable a node declares does not depend on its children. -/
theorem callable?_withChildren (n : Node) (cs : List Node) :
    (n.withChildren cs).callable? = n.callable? := by
  cases n <;> rfl

/-- The symbols a node has do not depend on its children. -/
theorem symbols_withChildren (n : Node) (cs : List Node) :
    (n.withChildren cs).symbols = n.symbols := by
  cases n <;> rfl

/-- The copy of a declaration declares the copy. -/
theorem declared?_relabel (n : Node) :
    (n.relabel map τ).declared? = n.declared?.map map.image := by
  cases n with
  | classDecl | functionDecl | constructorDecl | variableDecl =>
    simp only [relabel, declared?, Option.map_some, CopyMap.image_symbol]
  | callableRef | returnFrom =>
    simp only [relabel]
    split <;> rfl
  | _ => rfl

/-- The copy of a node declares the copy of the callable. -/
theorem callable?_relabel (n : Node) :
    (n.relabel map τ).callable? = n.callable?.map map.redirectCallable := by
  cases n with
  | callableRef | returnFrom =>
    simp only [relabel]
    split <;> rfl
  | _ => rfl

/-- Arguments are given for the same type parameters. -/
theorem typeArgEntries_relabel (n : Node) :
    (n.relabel map τ).typeArgEntries.map (·.1) = n.typeArgEntries.map (·.1) := by
  have hargs : ∀ typeArgs : Option TypeArguments,
      ((typeArgs.map (·.map τ)).elim [] TypeArguments.entries).map (·.1) =
        (typeArgs.elim [] TypeArguments.entries).map (·.1) := by
    rintro (_ | ⟨entries⟩)
    · rfl
    · simp [TypeArguments.map]
  cases n with
  | call => exact hargs _
  | callableRef =>
    simp only [relabel]
    split
    · rfl
    · exact hargs _
  | returnFrom =>
    simp only [relabel]
    split <;> rfl
  | _ => rfl

/-- A symbol that a relabelled node holds is the image of one that the node mentions,
or a type parameter that the node gives an argument for. -/
theorem mem_symbols_relabel {n : Node} {c : Symbol} (hc : c ∈ (n.relabel map τ).symbols) :
    (∃ a ∈ n.mentions, c = map.image a) ∨ c ∈ n.symbols := by
  rcases List.mem_append.1 hc with hc | hc
  · rw [mentions_relabel] at hc
    obtain ⟨a, ha, rfl⟩ := List.mem_map.1 hc
    exact .inl ⟨a, ha, rfl⟩
  · refine .inr (List.mem_append_right _ ?_)
    have hparams : ∀ entries : List (TypeParamId × TypeId),
        (entries.map fun e => e.1.symbol) = (entries.map (·.1)).map SymbolId.symbol :=
      fun entries => by
        rw [List.map_map]
        rfl
    rw [hparams, typeArgEntries_relabel, ← hparams] at hc
    exact hc

end Node

namespace CopyMap

/-- The image of a symbol is of its kind. -/
theorem kind_image (map : CopyMap) (a : Symbol) : (map.image a).kind = a.kind := by
  cases h : map.copyOf? a with
  | some c => rw [image_of_copyOf? h, kind_of_copyOf? h]
  | none => rw [image_of_not_copied h]

/-- A new symbol that a relabelled node holds is the image of a key. -/
theorem exists_key {map : CopyMap} {base : SymbolTable} {n : Node} {τ : TypeId → TypeId}
    (hn : ∀ a ∈ n.symbols, base.Allocated a) {c : Symbol} (hc : c ∈ (n.relabel map τ).symbols)
    (hnew : ¬ base.Allocated c) : ∃ a ∈ map.keys, c = map.image a := by
  rcases Node.mem_symbols_relabel hc with ⟨a, ha, rfl⟩ | hc
  · refine ⟨a, ?_, rfl⟩
    by_contra hk
    rw [image_of_not_copied (copyOf?_eq_none_iff.2 hk)] at hnew
    exact hnew (hn a (List.mem_append_left _ ha))
  · exact absurd (hn c hc) hnew

end CopyMap

namespace CopyState

variable {s : CopyState σ} {base : SymbolTable} {program : Program} {met : List Node}

/-- **The map of a copy takes the keys of each kind one to one to the symbols of this
kind that were added.** -/
theorem Tracks.bijOn (h : s.Tracks base []) (k : Kind) :
    Set.BijOn s.map.image {a | a ∈ s.map.keys ∧ a.kind = k}
      {c | c ∈ SymbolTable.added base s.program.symbols ∧ c.kind = k} := by
  refine ⟨?_, ?_, ?_⟩
  · rintro a ⟨ha, rfl⟩
    obtain ⟨c, hc⟩ := CopyMap.mem_keys.1 ha
    refine ⟨?_, s.map.kind_image a⟩
    rw [CopyMap.image_of_copyOf? hc, SymbolTable.mem_added]
    exact h.added c (.inr ⟨a, hc⟩)
  · rintro a ⟨ha, -⟩ b ⟨hb, -⟩ hab
    obtain ⟨c, hc⟩ := CopyMap.mem_keys.1 ha
    obtain ⟨d, hd⟩ := CopyMap.mem_keys.1 hb
    rw [CopyMap.image_of_copyOf? hc, CopyMap.image_of_copyOf? hd] at hab
    exact h.injective a b c hc (hab ▸ hd)
  · rintro c ⟨hc, rfl⟩
    obtain ⟨hnew, hthere⟩ := SymbolTable.mem_added.1 hc
    obtain hp | ⟨a, ha⟩ := h.listed c hnew hthere
    · cases hp
    · exact ⟨a, ⟨CopyMap.mem_keys.2 ⟨c, ha⟩, (CopyMap.kind_of_copyOf? ha).symm⟩,
        CopyMap.image_of_copyOf? ha⟩

/-- The copy of a callable lists the copies of its parameters. -/
theorem Account.paramsOf_redirect (h : s.Account program met) {callable : Callable}
    (hc : callable.symbol ∈ s.map.keys) :
    s.program.symbols.paramsOf (s.map.redirectCallable callable) =
      (program.symbols.paramsOf callable).map s.map.redirect := by
  rw [SymbolTable.paramsOf, h.lists callable hc]

end CopyState

namespace Copier

open CopyJob CopyState
open ParamSubst (outcome)

variable {program : Program} {subst : Option ParamSubst}

/-- The symbol is declared in the copied tree, is a parameter of a callable declared
there, or is or comes with the copy of an `invoke` operator that the tree called. -/
def Accounted (before after : SymbolTable) (root : Node) (copied : Copied) (c : Symbol) : Prop :=
  (∃ n ∈ copied.root.descendants, n.declared? = some c) ∨
  (∃ n ∈ copied.root.descendants, ∃ p ∈ n.declaredParams after, c = p.symbol) ∨
  ∃ n ∈ root.descendants, ∃ f, n.invoked? before = some f ∧
    (c = (copied.map.redirect f).symbol ∨
      ∃ p ∈ after.paramsOf (.fn (copied.map.redirect f)), c = p.symbol)

/-- How a copied tree, its map and the tables before and after the copy belong together. -/
structure Covers (before after : SymbolTable) (root : Node) (copied : Copied) : Prop where
  /-- What has a copy is declared below the root, or is an `invoke` operator called there,
  or a parameter of a callable declared there or of such an operator. -/
  keys : ∀ a, a ∈ copied.map.keys ↔ ∃ n ∈ root.descendants,
    n.declared? = some a ∨ (∃ f, n.invoked? before = some f ∧ a = f.symbol) ∨
      (∃ p ∈ n.declaredParams before, a = p.symbol) ∨
      ∃ f, n.invoked? before = some f ∧ ∃ p ∈ before.paramsOf (.fn f), a = p.symbol
  keys_nodup : copied.map.keys.Nodup
  not_typeParam : ∀ a ∈ copied.map.keys, a.kind ≠ .typeParam
  /-- Kind by kind, the keys correspond to all the symbols that were added. -/
  bijOn : ∀ k, Set.BijOn copied.map.image {a | a ∈ copied.map.keys ∧ a.kind = k}
    {c | c ∈ SymbolTable.added before after ∧ c.kind = k}
  size_eq : after.size = before.size + copied.map.size
  /-- Every added symbol in the copied tree is accounted for. -/
  accounted : ∀ n ∈ copied.root.descendants, ∀ c ∈ n.symbols,
    c ∈ SymbolTable.added before after → Accounted before after root copied c

/-- Wherever the tree has a node, the copied tree has the node relabelled. -/
theorem Relabels.mem_descendants {root : Node} {pool : TypePool} {copied : Copied}
    (h : Relabels root subst pool copied) {n : Node} :
    n ∈ copied.root.descendants ↔ ∃ m ∈ root.descendants,
      m.transform (Node.relabel copied.map (outcome subst pool)) = n := by
  rw [h.root_eq, Node.descendants_relabel, List.mem_map]

/-- The copy of a symbol is accounted for by the copy of the node that brings the symbol. -/
theorem accounted_of_mem_brings {root : Node} {pool : TypePool} {copied : Copied}
    {s : CopyState σ} (haccount : s.Account program root.descendants)
    (hrelabels : Relabels root subst pool copied) (hmap : copied.map = s.map) {n : Node}
    (hn : n ∈ root.descendants) {a : Symbol} (ha : a ∈ n.brings program.symbols) :
    Accounted program.symbols s.program.symbols root copied (copied.map.image a) := by
  have hcopy := hrelabels.mem_descendants.2 ⟨n, hn, rfl⟩
  -- the copy of a callable that the node brings lists the copies of its parameters
  have hparams : ∀ callable : Callable, callable.symbol ∈ n.brings program.symbols →
      s.program.symbols.paramsOf (copied.map.redirectCallable callable) =
        (program.symbols.paramsOf callable).map copied.map.redirect := by
    intro callable hc
    rw [hmap]
    exact haccount.paramsOf_redirect ((haccount.keys _).2 (List.mem_flatMap.2 ⟨n, hn, hc⟩))
  rcases Node.mem_brings.1 ha with hd | ⟨f, hf, rfl⟩ | ⟨p, hp, rfl⟩ | ⟨f, hf, p, hp, rfl⟩
  · refine .inl ⟨_, hcopy, ?_⟩
    rw [Node.transform_eq, Node.declared?_withChildren, Node.declared?_relabel, hd]
    rfl
  · exact .inr (.inr ⟨n, hn, f, hf, .inl (copied.map.image_symbol f)⟩)
  · obtain ⟨callable, hcallable, hp⟩ := Node.mem_declaredParams.1 hp
    have hbrings : callable.symbol ∈ n.brings program.symbols :=
      Node.mem_brings.2 (.inl (Node.declared?_of_callable? hcallable))
    have hdeclares : (n.transform (Node.relabel copied.map (outcome subst pool))).callable? =
        some (copied.map.redirectCallable callable) := by
      rw [Node.transform_eq, Node.callable?_withChildren, Node.callable?_relabel, hcallable]
      rfl
    refine .inr (.inl ⟨_, hcopy, copied.map.redirect p, ?_, copied.map.image_symbol p⟩)
    refine Node.mem_declaredParams.2 ⟨_, hdeclares, ?_⟩
    rw [hparams callable hbrings]
    exact List.mem_map_of_mem hp
  · have hlist : s.program.symbols.paramsOf (.fn (copied.map.redirect f)) = _ :=
      hparams (.fn f) (Node.mem_brings.2 (.inr (.inl ⟨f, hf, rfl⟩)))
    have hcopied : copied.map.redirect p ∈
        s.program.symbols.paramsOf (.fn (copied.map.redirect f)) := by
      rw [hlist]
      exact List.mem_map_of_mem hp
    exact .inr (.inr ⟨n, hn, f, hf, .inr ⟨_, hcopied, copied.map.image_symbol p⟩⟩)

/-- A copy that succeeds has found its target. -/
theorem target_allocated {copier : Copier σ} {root : Node} {inlined : String}
    {s s' : CopyState σ} {copied : Copied} (h : copier.actions root inlined s = .ok copied s') :
    s.program.symbols.Allocated copier.target.symbol := by
  rw [actions_eq] at h
  split at h
  · assumption
  · cases h

/-- **A copy accounts for all its symbols.**  Its keys are what the nodes below the root
declare and the `invoke` operators that they call, with their parameters; kind by kind
they correspond to the symbols that the table gained; and every added symbol in the
copied tree has its place there. -/
theorem copy_covers {program' : Program} {memory memory' : σ} {target : FunctionId}
    {options : CopyOptions} {root : Node} {inlined : String} {copied : Copied}
    (hclosed : program.Closed) (hroot : root.ClosedIn program)
    (hwithin : ∀ s ∈ subst, s.Within program.pool)
    (hcopy : (ofParams target subst options).copy root inlined (program, memory) =
      .ok copied (program', memory')) :
    Covers program.symbols program'.symbols root copied := by
  have hactions := actions_of_copy hcopy
  obtain ⟨-, -, haccount⟩ := (actions_account options inlined memory hclosed
    (target_allocated hactions) hroot hwithin).ok_of_eq hactions
  obtain ⟨-, -, htracks⟩ := (actions_adds target subst options root inlined program
    memory).ok_of_eq hactions
  have hrelabels := (actions_relabel target options inlined memory hclosed hroot
    hwithin).ok_of_eq hactions
  have hkeys : ∀ a, a ∈ copied.map.keys ↔
      ∃ n ∈ root.descendants, a ∈ n.brings program.symbols :=
    fun a => (haccount.keys a).trans List.mem_flatMap
  refine ⟨fun a => ?_, copied.map.keys_nodup, fun a ha => ?_, htracks.bijOn, htracks.size_eq,
    fun n' hn' c hc hadded => ?_⟩
  · simp only [hkeys, Node.mem_brings]
  · obtain ⟨c, hc⟩ := CopyMap.mem_keys.1 ha
    exact CopyMap.kind_ne_of_copyOf? hc
  · obtain ⟨n, hn, rfl⟩ := hrelabels.mem_descendants.1 hn'
    rw [Node.transform_eq, Node.symbols_withChildren] at hc
    have hnew := (SymbolTable.mem_added.1 hadded).1
    obtain ⟨a, ha, rfl⟩ := CopyMap.exists_key (hroot.below hn).symbols hc hnew
    obtain ⟨m, hm, hbrings⟩ := (hkeys a).1 ha
    exact accounted_of_mem_brings haccount hrelabels rfl hm hbrings

/-- The sample tree has a copy, and it accounts for all its symbols. -/
theorem copy_covers_sample :
    ∃ copied program', (ofParams ⟨0⟩ (some sampleSubst) {}).copy sampleTree "block"
        (sampleProgram, ()) = .ok copied (program', ()) ∧
      Covers sampleProgram.symbols program'.symbols sampleTree copied := by
  have hok : Succeeds ((ofParams ⟨0⟩ (some sampleSubst) {}).copy sampleTree "block")
      (sampleProgram, ()) = true := by decide +kernel
  obtain ⟨copied, ⟨program', ⟨⟩⟩, hcopy⟩ := succeeds_iff.1 hok
  exact ⟨copied, program', hcopy, copy_covers (by decide +kernel) (by decide +kernel)
    (by decide +kernel) hcopy⟩

end Copier

end Graft
