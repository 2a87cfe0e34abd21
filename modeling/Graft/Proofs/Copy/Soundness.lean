/-
# A copy over a closed program

Over a closed program and tree, a copy succeeds if and only if the trees below the root
are lawful, unless a name does not fit; it then accounts for every node below the root
(`Copier.actions_account`).  The check at the end never fails, since every key of the
map is an old symbol and the copied tree mentions only images (`Copier.no_dangling`).
-/

import Graft.Proofs.Copy.Image
import Graft.Proofs.Copy.Walk

namespace Graft

open TypePool (Grown)
open Node (Lawful)
open CopyJob (Fails)

variable {σ : Type} {program : Program} {subst : Option ParamSubst}

/-- The parameters of an allocated callable are allocated. -/
theorem Program.Closed.withParams_allocated (hclosed : program.Closed) {callable : Callable}
    (hc : program.symbols.Allocated callable.symbol) {a : Symbol}
    (ha : a ∈ program.symbols.withParams callable) : program.symbols.Allocated a := by
  rcases SymbolTable.mem_withParams_iff.1 ha with ⟨p, hp, rfl⟩ | rfl
  · cases callable with
    | fn id =>
      obtain ⟨r, hr⟩ := SymbolTable.allocated_iff.1 hc
      rw [SymbolTable.paramsOf_fn hr] at hp
      exact hclosed.allocated hr (List.mem_append_right _ (List.mem_map_of_mem hp))
    | ctor id =>
      obtain ⟨r, hr⟩ := SymbolTable.allocated_iff.1 hc
      rw [SymbolTable.paramsOf_ctor hr] at hp
      exact hclosed.allocated hr (.tail _ (List.mem_append_right _ (List.mem_map_of_mem hp)))
  · exact hc

/-- A node brings symbols of the program only. -/
theorem Node.brings_allocated (hclosed : program.Closed) {n : Node} (hn : n.KnownTo program)
    {a : Symbol} (ha : a ∈ n.brings program.symbols) : program.symbols.Allocated a := by
  cases n with
  | functionDecl | constructorDecl => exact hclosed.withParams_allocated (hn.mention (.head _)) ha
  | classDecl | variableDecl => exact List.mem_singleton.1 ha ▸ hn.mention (.head _)
  | call span origin ty callee =>
    cases callee with
    | fn callee =>
      rw [brings] at ha
      split at ha
      · exact hclosed.withParams_allocated (hn.mention (.head _)) ha
      · cases ha
    | ctor callee => cases ha
  | callableRef | returnFrom | getValue | setVariable | block | const | «when» | whileLoop
  | typeOp => cases ha

/-- What comes with nodes of a closed program is in the program. -/
theorem Node.bringsAll_allocated (hclosed : program.Closed) {met : List Node}
    (hmet : ∀ n ∈ met, n.KnownTo program) {a : Symbol}
    (ha : a ∈ bringsAll program.symbols met) : program.symbols.Allocated a := by
  obtain ⟨n, hn, hb⟩ := List.mem_flatMap.1 ha
  exact n.brings_allocated hclosed (hmet n hn) hb

namespace CopyState

/-- A copy starts with nothing met. -/
theorem account_start (program : Program) (memory : σ) :
    ({ program, memory } : CopyState σ).Account program [] where
  old := ⟨.refl _, .refl _⟩
  keys a := iff_of_false (CopyMap.not_mem_keys_empty a) nofun
  lists c hc := absurd hc (CopyMap.not_mem_keys_empty c.symbol)

variable {s : CopyState σ} {met : List Node}

/-- A pool that grows leaves the account as it is. -/
theorem Account.withPool (h : s.Account program met) {pool : TypePool}
    (hp : Grown s.program.pool pool) : (s.withPool pool).Account program met :=
  ⟨⟨h.old.symbols, h.old.pool.trans hp⟩, h.keys, h.lists⟩

/-- Every key is an old symbol. -/
theorem Account.key_allocated (h : s.Account program met) (hclosed : program.Closed)
    (hmet : ∀ n ∈ met, n.KnownTo program) {a : Symbol} (ha : a ∈ s.map.keys) :
    program.symbols.Allocated a := Node.bringsAll_allocated hclosed hmet ((h.keys a).1 ha)

/-- Where every key is an old symbol, no image of an old symbol is a key. -/
theorem Tracks.image_not_key {base : SymbolTable} {pending : List Symbol}
    (h : s.Tracks base pending) (hkeys : ∀ a ∈ s.map.keys, base.Allocated a) (a : Symbol) :
    s.map.image a ∉ s.map.keys := by
  intro hk
  cases ha : s.map.copyOf? a with
  | some c =>
    rw [CopyMap.image_of_copyOf? ha] at hk
    exact (h.added c (.inr ⟨a, ha⟩)).1 (hkeys c hk)
  | none =>
    rw [CopyMap.image_of_not_copied ha] at hk
    exact CopyMap.copyOf?_eq_none_iff.1 ha hk

/-- **A relabelled tree mentions no copied symbol below its root.** -/
theorem Tracks.no_dangling {base : SymbolTable} {pending : List Symbol}
    (h : s.Tracks base pending) (hkeys : ∀ a ∈ s.map.keys, base.Allocated a) (root : Node)
    (τ : TypeId → TypeId) :
    s.map.dangling? (root.transformBelow (Node.relabel s.map τ)) = none := by
  rw [CopyMap.dangling?_eq, Node.descendants_relabel]
  refine List.findSome?_eq_none_iff.2 fun m hm => ?_
  obtain ⟨n, -, rfl⟩ := List.mem_map.1 hm
  rw [Node.transform_eq, Node.mentions_withChildren, Node.mentions_relabel]
  refine List.find?_eq_none.2 fun b hb => ?_
  obtain ⟨a, -, rfl⟩ := List.mem_map.1 hb
  rw [CopyMap.isCopied_iff]
  exact h.image_not_key hkeys a

end CopyState

open CopyState Copier in
/-- The first pass succeeds exactly on lawful trees, unless a name does not fit.  After it,
no copied symbol is mentioned below the root once the tree is relabelled. -/
theorem CopyJob.Over.firstPass_ends {job : CopyJob σ} (h : job.Over program subst) {root : Node}
    (hroot : root.ClosedIn program) (memory : σ) :
    Ends (forM root.children job.copyDeclarations) { program, memory }
      (fun _ s => Lawful program.symbols [] root.children ∧
        s.Account program root.descendants ∧
        ∀ τ, s.map.dangling? (root.transformBelow (Node.relabel s.map τ)) = none)
      (fun e _ => Fails (Lawful program.symbols [] root.children) e) := by
  have haccounts := accounts_forM (fun c hc => h.accounts_copyDeclarations c fun m hm =>
    hroot.below (Node.descendants_of_child hc hm)) [] { program, memory } (account_start _ _)
  refine (haccounts.and (firstPass_steps job root _)).imp ?_ fun _ _ h => h.1
  rintro - s ⟨⟨hlawful, haccount⟩, hsteps⟩
  rw [List.nil_append, Node.preorder_children] at haccount
  have htracks : s.Tracks program.symbols [] := Tracks.steps hsteps (.start _ rfl)
  have hkeys : ∀ a ∈ s.map.keys, program.symbols.Allocated a := fun a ha =>
    haccount.key_allocated h.closed (fun n hn => hroot.below hn) ha
  exact ⟨hlawful, haccount, htracks.no_dangling hkeys root⟩

namespace Copier

open CopyJob CopyState

/-- **A copy over a closed program succeeds exactly on lawful trees,** unless a name does
not fit. -/
theorem actions_account {target : FunctionId} (options : CopyOptions) {root : Node}
    (inlined : String) (memory : σ) (hclosed : program.Closed)
    (htarget : program.symbols.Allocated target.symbol) (hroot : root.ClosedIn program)
    (hwithin : ∀ s ∈ subst, s.Within program.pool) :
    Ends ((ofParams target subst options).actions root inlined) { program, memory }
      (fun copied s' => Lawful program.symbols [] root.children ∧ copied.map = s'.map ∧
        s'.Account program root.descendants)
      (fun e _ => Fails (Lawful program.symbols [] root.children) e) := by
  have hover := over_job (σ := σ) target options inlined hclosed hwithin
  refine actions_ends _ (fun _ => ?_) fun h => absurd htarget h
  refine Ends.bind ((hover.firstPass_ends hroot memory).imp ?_ fun _ _ h => h)
  rintro - s₁ ⟨hlawful, haccount, hnone⟩
  refine (secondPass_ends _ hover root (fun n hn => hroot.below hn) s₁
    haccount.old.pool).imp ?_ ?_
  · rintro copied s₂ ⟨hmap, pool, rfl, hp, -⟩
    exact ⟨hlawful, hmap, haccount.withPool hp⟩
  · rintro e s₂ ⟨a, pool, -, hdangling⟩
    rw [hnone] at hdangling
    cases hdangling

end Copier

end Graft
