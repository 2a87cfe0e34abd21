/-
# The copied tree

The second pass leaves the shape of a tree alone.  Every node below the root is
exchanged in its place for one that mentions the copies instead of the symbols that
were copied and carries the substituted types (`Node.relabel`), and the root keeps its
own fields (`Copier.copy_root`).  Read as a map of symbols, a copy map takes different
symbols of the tree to different symbols, since a copy is never an old symbol.
-/

import Graft.Proofs.Copy.Settling

namespace Graft

open TypePool (Grown)
open ParamSubst (outcome Settles)

variable {σ : Type}

/-- Exchange every type and keep the parameters. -/
def TypeArguments.map (f : TypeId → TypeId) (args : TypeArguments) : TypeArguments :=
  ⟨args.entries.map fun (p, t) => (p, f t)⟩

namespace Node

/-- The node with its symbols exchanged for their copies and its types for what `τ`
makes of them.  A callable reference or a return keeps its types if its target was
not copied. -/
def relabel (map : CopyMap) (τ : TypeId → TypeId) : Node → Node
  | .classDecl span origin symbol members => .classDecl span origin (map.redirect symbol) members
  | .functionDecl span origin symbol body => .functionDecl span origin (map.redirect symbol) body
  | .constructorDecl span origin symbol body =>
    .constructorDecl span origin (map.redirect symbol) body
  | .variableDecl span origin symbol init => .variableDecl span origin (map.redirect symbol) init
  | .call span origin ty callee typeArgs superClass dispatch extension args =>
    .call span origin (τ ty) ((map.callable? callee).getD callee) (typeArgs.map (·.map τ))
      (superClass.map map.redirect) dispatch extension args
  | .callableRef span origin ty target typeArgs dispatch extension =>
    match map.callable? target with
    | none => .callableRef span origin ty target typeArgs dispatch extension
    | some copy =>
      .callableRef span origin (τ ty) copy (typeArgs.map (·.map τ)) dispatch extension
  | .returnFrom span ty target value =>
    match map.callable? target with
    | none => .returnFrom span ty target value
    | some copy => .returnFrom span (τ ty) copy value
  | .getValue span origin symbol => .getValue span origin ((map.readable? symbol).getD symbol)
  | .setVariable span origin symbol value =>
    .setVariable span origin (map.redirect symbol) value
  | .block span ty statements => .block span (τ ty) statements
  | .const span ty value => .const span (τ ty) value
  | .when span ty branches => .when span (τ ty) branches
  | .whileLoop span condition body => .whileLoop span condition body
  | .typeOp span ty operator operandTy arg => .typeOp span (τ ty) operator (τ operandTy) arg

/-- The types of a node that are exchanged. -/
def substituted (map : CopyMap) (n : Node) : List TypeId :=
  match n with
  | .callableRef _ _ _ target .. | .returnFrom _ _ target _ =>
    if (map.callable? target).isSome then n.types else []
  | _ => n.types

variable {map : CopyMap} {τ : TypeId → TypeId}

/-- The types at a node do not depend on its children. -/
theorem types_withChildren (n : Node) (cs : List Node) : (n.withChildren cs).types = n.types := by
  cases n <;> rfl

/-- The types at a node that are substituted do not depend on its children. -/
theorem substituted_withChildren (n : Node) (cs : List Node) :
    (n.withChildren cs).substituted map = n.substituted map := by
  cases n <;> rfl

/-- Whether the children or the other fields are exchanged first is the same. -/
theorem relabel_withChildren (n : Node) (cs : List Node) :
    (n.withChildren cs).relabel map τ = (n.relabel map τ).withChildren cs := by
  cases n with
  | callableRef | returnFrom =>
    simp only [withChildren, relabel]
    split <;> rfl
  | _ => rfl

/-- The children are not touched. -/
theorem children_relabel (n : Node) : (n.relabel map τ).children = n.children := by
  cases n with
  | callableRef | returnFrom =>
    simp only [relabel]
    split <;> rfl
  | _ => rfl

/-- Every node below the root is relabelled in its place. -/
theorem descendants_relabel (map : CopyMap) (τ : TypeId → TypeId) (root : Node) :
    (root.transformBelow (relabel map τ)).descendants =
      root.descendants.map (transform (relabel map τ)) :=
  descendants_transformBelow (fun n => by rw [children_relabel]) root

end Node

/-- **Every mention is exchanged.** -/
theorem Node.mentions_relabel (map : CopyMap) (τ : TypeId → TypeId) (n : Node) :
    (n.relabel map τ).mentions = n.mentions.map map.image := by
  cases n with
  | classDecl | functionDecl | constructorDecl | variableDecl | setVariable =>
    simp [relabel, mentions, declared?, referenced, CopyMap.image_symbol]
  | call span origin ty callee typeArgs superClass dispatch extension args =>
    cases superClass <;>
      simp [relabel, mentions, declared?, referenced, CopyMap.image_symbol,
        CopyMap.image_callable]
  | callableRef span origin ty target typeArgs dispatch extension =>
    have h := map.image_callable target
    cases hc : map.callable? target <;> rw [hc] at h <;>
      simp [relabel, mentions, declared?, referenced, hc, h]
  | returnFrom span ty target value =>
    have h := map.image_callable target
    cases hc : map.callable? target <;> rw [hc] at h <;>
      simp [relabel, mentions, declared?, referenced, hc, h]
  | getValue => simp [relabel, mentions, declared?, referenced, CopyMap.image_readable]
  | block | const | «when» | whileLoop | typeOp => rfl

/-! ### The second pass -/

namespace CopyJob

variable {job : CopyJob σ} {program : Program} {subst : Option ParamSubst} {copies : CopyMap}

/-- Type arguments are substituted type by type. -/
theorem Over.substitutes_args (h : job.Over program subst) (args : Option TypeArguments)
    (ht : ∀ e ∈ args.elim [] TypeArguments.entries, program.pool.Has e.2) :
    Substitutes program subst copies (job.substituteArgs args)
      ((args.elim [] TypeArguments.entries).map fun e => e.2)
      fun τ => args.map (·.map τ) := by
  cases args with
  | none => exact substitutes_pure none
  | some args =>
    have hentry : ∀ e ∈ args.entries, Substitutes program subst copies
        (do let t ← job.substitute e.2; return (e.1, t)) [e.2] fun τ => (e.1, τ e.2) :=
      fun e he => (h.substitutes_substitute (ht e he)).bind fun t => substitutes_pure (e.1, t)
    have hargs := (Substitutes.mapM args.entries hentry).bind fun entries =>
      substitutes_pure (⟨entries⟩ : TypeArguments)
    have hsome := hargs.bind fun args => substitutes_pure (some args)
    rw [List.append_nil, List.append_nil, ← List.map_eq_flatMap] at hsome
    exact hsome

/-- A node is resolved to itself, relabelled. -/
theorem Over.substitutes_resolve (h : job.Over program subst) (n : Node)
    (ht : ∀ t ∈ n.types, program.pool.Has t) :
    Substitutes program subst copies (job.resolve n) (n.substituted copies)
      fun τ => n.relabel copies τ := by
  refine Substitutes.of_copies ?_
  cases n with
  | classDecl | functionDecl | constructorDecl | variableDecl | getValue | setVariable |
    whileLoop => exact substitutes_pure _
  | block | const | «when» =>
    exact (h.substitutes_substitute (ht _ (.head _))).bind fun ty => substitutes_pure _
  | typeOp span ty operator operandTy arg =>
    have hty : Substitutes program subst copies (job.substitute ty) [ty] fun τ => τ ty :=
      h.substitutes_substitute (ht _ (.head _))
    have hoperand : Substitutes program subst copies (job.substitute operandTy) [operandTy]
        fun τ => τ operandTy := h.substitutes_substitute (ht _ (.tail _ (.head _)))
    exact hty.bind fun ty => hoperand.bind fun operandTy => substitutes_pure _
  | call span origin ty callee typeArgs superClass dispatch extension args =>
    have hty : Substitutes program subst copies (job.substitute ty) [ty] fun τ => τ ty :=
      h.substitutes_substitute (ht _ (.head _))
    have hargs : Substitutes program subst copies (job.substituteArgs typeArgs) _ _ :=
      h.substitutes_args typeArgs fun e he => ht _ (.tail _ (List.mem_map_of_mem he))
    refine (hty.bind fun ty => hargs.bind fun typeArgs => substitutes_pure _).of_mem ?_
    intro t ht
    rw [List.append_nil]
    exact ht
  | callableRef span origin ty target typeArgs dispatch extension =>
    have hty : Substitutes program subst copies (job.substitute ty) [ty] fun τ => τ ty :=
      h.substitutes_substitute (ht _ (.head _))
    have hargs : Substitutes program subst copies (job.substituteArgs typeArgs) _ _ :=
      h.substitutes_args typeArgs fun e he => ht _ (.tail _ (List.mem_map_of_mem he))
    simp only [Node.relabel, Node.substituted]
    cases copies.callable? target with
    | none => exact substitutes_pure _
    | some copy =>
      refine (hty.bind fun ty => hargs.bind fun typeArgs => substitutes_pure _).of_mem ?_
      intro t ht
      rw [List.append_nil]
      exact ht
  | returnFrom span ty target value =>
    have hty : Substitutes program subst copies (job.substitute ty) [ty] fun τ => τ ty :=
      h.substitutes_substitute (ht _ (.head _))
    simp only [Node.relabel, Node.substituted]
    cases copies.callable? target with
    | none => exact substitutes_pure _
    | some copy => exact hty.bind fun ty => substitutes_pure _

/-- A tree is rebuilt as itself, relabelled. -/
theorem Over.substitutes_rebuild (h : job.Over program subst) (n : Node)
    (ht : ∀ m ∈ n :: n.descendants, ∀ t ∈ m.types, program.pool.Has t) :
    Substitutes program subst copies (Node.rebuild job.resolve n)
      ((n :: n.descendants).flatMap (Node.substituted copies))
      fun τ => n.transform (Node.relabel copies τ) := by
  induction n using Node.induction_children with
  | step n ih =>
    have hchildren := Substitutes.mapM n.children fun c hc =>
      ih c hc fun m hm => ht m (.tail _ (Node.descendants_of_child hc hm))
    have hresolve : ∀ cs, Substitutes program subst copies (job.resolve (n.withChildren cs))
        (n.substituted copies) fun τ => (n.relabel copies τ).withChildren cs := by
      intro cs
      have hn : Substitutes program subst copies (job.resolve (n.withChildren cs)) _ _ :=
        h.substitutes_resolve (n.withChildren cs) fun t hm =>
          ht n (.head _) t (n.types_withChildren cs ▸ hm)
      simpa only [Node.substituted_withChildren, Node.relabel_withChildren] using hn
    have hrebuild : Node.rebuild job.resolve n =
        n.children.mapM (Node.rebuild job.resolve) >>= fun cs =>
          job.resolve (n.withChildren cs) := by
      rw [Node.rebuild, Node.rebuildChildren_eq, bind_map_left]
    rw [hrebuild]
    simp only [Node.transform_eq _ n]
    refine (hchildren.bind hresolve).of_mem ?_
    intro t ht
    rw [List.flatMap_cons, Node.descendants_eq, List.flatMap_assoc] at ht
    exact List.mem_append.2 (List.mem_append.1 ht).symm

/-- **The second pass relabels every node below the root.** -/
theorem Over.substitutes_redirectReferences (h : job.Over program subst) (root : Node)
    (ht : ∀ n ∈ root.descendants, ∀ t ∈ n.types, program.pool.Has t) :
    Substitutes program subst copies (job.redirectReferences root)
      (root.descendants.flatMap (Node.substituted copies))
      fun τ => root.transformBelow (Node.relabel copies τ) := by
  have hchildren : Substitutes program subst copies
      (root.children.mapM (Node.rebuild job.resolve)) _ _ :=
    Substitutes.mapM root.children fun c hc =>
      h.substitutes_rebuild c fun m hm => ht m (Node.descendants_of_child hc hm)
  rw [redirectReferences, Node.rebuildChildren_eq, Node.descendants_eq, List.flatMap_assoc]
  exact hchildren.map root.withChildren

end CopyJob

/-- Different symbols of the program that a copy starts with have different images. -/
theorem CopyState.Tracks.image_injective {s : CopyState σ} {base : SymbolTable}
    {pending : List Symbol} (h : s.Tracks base pending) {a b : Symbol} (ha : base.Allocated a)
    (hb : base.Allocated b) (hab : s.map.image a = s.map.image b) : a = b := by
  cases hca : s.map.copyOf? a with
  | some c =>
    rw [CopyMap.image_of_copyOf? hca] at hab
    cases hcb : s.map.copyOf? b with
    | some d =>
      rw [CopyMap.image_of_copyOf? hcb] at hab
      exact h.injective a b c hca (hab ▸ hcb)
    | none =>
      rw [CopyMap.image_of_not_copied hcb] at hab
      exact absurd (hab ▸ hb) (h.added c (.inr ⟨a, hca⟩)).1
  | none =>
    rw [CopyMap.image_of_not_copied hca] at hab
    cases hcb : s.map.copyOf? b with
    | some d =>
      rw [CopyMap.image_of_copyOf? hcb] at hab
      exact absurd (hab ▸ ha) (h.added d (.inr ⟨b, hcb⟩)).1
    | none => rwa [CopyMap.image_of_not_copied hcb] at hab

namespace Copier

open CopyJob

variable {program : Program} {subst : Option ParamSubst}

/-- The copy is the tree with every node below the root relabelled, and the types of
the tree settle in the pool. -/
structure Relabels (root : Node) (subst : Option ParamSubst) (pool : TypePool)
    (copied : Copied) : Prop where
  root_eq : copied.root = root.transformBelow (Node.relabel copied.map (outcome subst pool))
  settles : ∀ n ∈ root.descendants, ∀ t ∈ n.substituted copied.map,
    Settles subst pool t (outcome subst pool t)

/-- The second pass gives the tree relabelled, unless the check finds a symbol in it
that was copied. -/
theorem secondPass_ends (copier : Copier σ) {job : CopyJob σ} (h : job.Over program subst)
    (root : Node) (hroot : ∀ n ∈ root.descendants, n.KnownTo program) (s : CopyState σ)
    (hs : Grown program.pool s.program.pool) :
    Ends (copier.secondPass job root) s
      (fun copied s' => copied.map = s.map ∧
        ∃ pool, s' = s.withPool pool ∧ Grown s.program.pool pool ∧
          Relabels root subst pool copied)
      (fun e _ => ∃ a pool, e = .rejected (.dangling a) ∧
        s.map.dangling? (root.transformBelow (Node.relabel s.map (outcome subst pool))) =
          some a) := by
  have hpass := h.substitutes_redirectReferences root (fun n hn => (hroot n hn).types) s rfl hs
  refine Ends.bind (hpass.imp (fun copy s' => ?_) fun _ _ h => h.elim)
  rintro ⟨pool, rfl, hp, hv⟩
  obtain ⟨rfl, hts⟩ := hv pool (.refl _)
  have hrelabels : Relabels root subst pool
      ⟨root.transformBelow (Node.relabel s.map (outcome subst pool)), s.map⟩ :=
    ⟨rfl, fun n hn t ht => hts t (List.mem_flatMap.2 ⟨n, hn, ht⟩)⟩
  refine Ends.bind (Ends.of_eq_ok (show CopyM.copies (s.withPool pool) = .ok s.map _ from rfl) ?_)
  dsimp only
  split
  · split
    · rename_i e he
      unfold CopyMap.check at he
      split at he
      · cases he
      · rename_i a ha
        cases he
        exact ⟨a, pool, rfl, ha⟩
    · exact ⟨rfl, pool, rfl, hp, hrelabels⟩
  · exact ⟨rfl, pool, rfl, hp, hrelabels⟩

/-- The job of a copier over a closed program. -/
theorem over_job (target : FunctionId) (options : CopyOptions) (inlined : String)
    (hclosed : program.Closed) (hwithin : ∀ s ∈ subst, s.Within program.pool) :
    ((ofParams target subst options : Copier σ).job program inlined).Over program subst :=
  ⟨hclosed, hwithin, rfl⟩

/-- A copy that succeeds has relabelled the tree, whatever the first pass did. -/
theorem actions_relabel (target : FunctionId) (options : CopyOptions) {root : Node}
    (inlined : String) (memory : σ) (hclosed : program.Closed) (hroot : root.ClosedIn program)
    (hwithin : ∀ s ∈ subst, s.Within program.pool) :
    Ends ((ofParams target subst options).actions root inlined) { program, memory }
      (fun copied s' => Relabels root subst s'.program.pool copied) (fun _ _ => True) := by
  have hover := over_job (σ := σ) target options inlined hclosed hwithin
  refine actions_ends _ (fun _ => ?_) fun _ => trivial
  refine Ends.bind ((firstPass_steps _ root _).imp (fun _ s₁ h₁ => ?_) fun _ _ _ => trivial)
  refine (secondPass_ends _ hover root (fun n hn => hroot.below hn) s₁
    (Steps.pool_grown rfl h₁)).imp ?_ fun _ _ _ => trivial
  rintro copied s' ⟨-, pool, rfl, -, hrelabels⟩
  exact hrelabels

/-- **A copied tree is the tree, relabelled.**  Extended by the identity, the map of a
copy takes different symbols of the tree to different symbols.  The root keeps its own
fields; every node below it keeps its place, mentions the images of the symbols that it
mentioned, and carries what one substitution at an invariant position makes of its
types. -/
theorem copy_root {program' : Program} {memory memory' : σ} {target : FunctionId}
    {options : CopyOptions} {root : Node} {inlined : String} {copied : Copied}
    (hclosed : program.Closed) (hroot : root.ClosedIn program)
    (hwithin : ∀ s ∈ subst, s.Within program.pool)
    (hcopy : (ofParams target subst options).copy root inlined (program, memory) =
      .ok copied (program', memory')) :
    (∀ n ∈ root :: root.descendants, ∀ m ∈ root :: root.descendants,
      ∀ a ∈ n.symbols, ∀ b ∈ m.symbols, copied.map.image a = copied.map.image b → a = b) ∧
    copied.root = root.transformBelow (Node.relabel copied.map (outcome subst program'.pool)) ∧
    (∀ n ∈ root.descendants,
      (n.relabel copied.map (outcome subst program'.pool)).mentions =
        n.mentions.map copied.map.image) ∧
    ∀ n ∈ root.descendants, ∀ t ∈ n.substituted copied.map,
      Settles subst program'.pool t (outcome subst program'.pool t) := by
  have hactions := actions_of_copy hcopy
  obtain ⟨-, hadds⟩ := (actions_adds target subst options root inlined program memory).ok_of_eq
    hactions
  have hrelabels := (actions_relabel target options inlined memory hclosed hroot
    hwithin).ok_of_eq hactions
  refine ⟨fun n hn m hm a ha b hb => ?_, hrelabels.root_eq, fun n _ => n.mentions_relabel _ _,
    hrelabels.settles⟩
  exact hadds.tracks.image_injective ((hroot n hn).symbols a ha) ((hroot m hm).symbols b hb)

/-- The sample tree can be copied, and the copy is the tree relabelled. -/
theorem copy_root_sample :
    ∃ copied program', (ofParams ⟨0⟩ (some sampleSubst) {}).copy sampleTree "block"
        (sampleProgram, ()) = .ok copied (program', ()) ∧
      copied.root = sampleTree.transformBelow
        (Node.relabel copied.map (outcome (some sampleSubst) program'.pool)) := by
  have hok : Succeeds ((ofParams ⟨0⟩ (some sampleSubst) {}).copy sampleTree "block")
      (sampleProgram, ()) = true := by decide +kernel
  obtain ⟨copied, ⟨program', ⟨⟩⟩, hcopy⟩ := succeeds_iff.1 hok
  have hroot := copy_root (by decide +kernel) (by decide +kernel) (by decide +kernel) hcopy
  exact ⟨copied, program', hcopy, hroot.2.1⟩

end Copier

end Graft
