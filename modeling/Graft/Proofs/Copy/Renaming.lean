/-
# Renaming symbols and types

A renaming exchanges handles: of symbols, kind by kind, and of types.  Type parameters are
not symbols that are renamed.  Renamings act on nodes and on records.  To rename twice is
to rename once (`Node.rename_rename`), and only what a node or record holds matters
(`Node.rename_congr`).  A whole tree is renamed node by node; two passes over a tree are
one (`Node.transform_transform`).
-/

import Graft.Proofs.Copy.Image

namespace Graft

/-- Other handles for symbols and for types. -/
structure Renaming where
  symbol : (k : Kind) → SymbolId k → SymbolId k
  type : TypeId → TypeId

namespace Renaming

/-- First the one, then the other. -/
def trans (ρ ρ' : Renaming) : Renaming where
  symbol k id := ρ'.symbol k (ρ.symbol k id)
  type t := ρ'.type (ρ.type t)

/-- The callable renamed. -/
def callable (ρ : Renaming) : Callable → Callable
  | .fn id => .fn (ρ.symbol .fn id)
  | .ctor id => .ctor (ρ.symbol .ctor id)

/-- The readable renamed. -/
def readable (ρ : Renaming) : Readable → Readable
  | .var id => .var (ρ.symbol .var id)
  | .param id => .param (ρ.symbol .param id)

/-- The owner renamed. -/
def owner (ρ : Renaming) : Owner → Owner
  | .module => .module
  | .fn id => .fn (ρ.symbol .fn id)
  | .cls id => .cls (ρ.symbol .cls id)
  | .ctor id => .ctor (ρ.symbol .ctor id)

/-- The renamings do the same to the given symbols and types. -/
structure AgreesOn (ρ ρ' : Renaming) (symbols : List Symbol) (types : List TypeId) : Prop where
  symbol : ∀ (k : Kind) (id : SymbolId k), id.symbol ∈ symbols → ρ.symbol k id = ρ'.symbol k id
  type : ∀ t ∈ types, ρ.type t = ρ'.type t

variable {ρ ρ' : Renaming} {symbols : List Symbol} {types : List TypeId}

/-- Renamings that agree on the symbol of a callable agree on the callable. -/
theorem AgreesOn.callable (h : ρ.AgreesOn ρ' symbols types) {c : Callable}
    (hc : c.symbol ∈ symbols) : ρ.callable c = ρ'.callable c := by
  cases c with
  | fn id => exact congrArg Callable.fn (h.symbol .fn id hc)
  | ctor id => exact congrArg Callable.ctor (h.symbol .ctor id hc)

/-- Renamings that agree on the symbol of a readable agree on the readable. -/
theorem AgreesOn.readable (h : ρ.AgreesOn ρ' symbols types) {r : Readable}
    (hr : r.symbol ∈ symbols) : ρ.readable r = ρ'.readable r := by
  cases r with
  | var id => exact congrArg Readable.var (h.symbol .var id hr)
  | param id => exact congrArg Readable.param (h.symbol .param id hr)

/-- A callable is renamed by one renaming after the other. -/
theorem callable_trans (c : Callable) : (ρ.trans ρ').callable c = ρ'.callable (ρ.callable c) := by
  cases c <;> rfl

/-- A readable is renamed by one renaming after the other. -/
theorem readable_trans (r : Readable) : (ρ.trans ρ').readable r = ρ'.readable (ρ.readable r) := by
  cases r <;> rfl

end Renaming

/-- Type arguments are mapped by one function after the other. -/
theorem TypeArguments.map_map (f g : TypeId → TypeId) (args : TypeArguments) :
    (args.map f).map g = args.map fun t => g (f t) := by
  simp [TypeArguments.map]

/-- Functions that agree on the types of type arguments map the arguments alike. -/
theorem TypeArguments.map_congr {f g : TypeId → TypeId} {args : TypeArguments}
    (h : ∀ e ∈ args.entries, f e.2 = g e.2) : args.map f = args.map g := by
  simp only [TypeArguments.map, TypeArguments.mk.injEq]
  exact List.map_congr_left fun e he => by rw [h e he]

namespace Node

/-! ### Nodes -/

/-- The node with its own symbols and types renamed. -/
def rename (ρ : Renaming) : Node → Node
  | .classDecl span origin symbol members =>
    .classDecl span origin (ρ.symbol .cls symbol) members
  | .functionDecl span origin symbol body =>
    .functionDecl span origin (ρ.symbol .fn symbol) body
  | .constructorDecl span origin symbol body =>
    .constructorDecl span origin (ρ.symbol .ctor symbol) body
  | .variableDecl span origin symbol init =>
    .variableDecl span origin (ρ.symbol .var symbol) init
  | .call span origin ty callee typeArgs superClass dispatch extension args =>
    .call span origin (ρ.type ty) (ρ.callable callee) (typeArgs.map (·.map ρ.type))
      (superClass.map (ρ.symbol .cls)) dispatch extension args
  | .callableRef span origin ty target typeArgs dispatch extension =>
    .callableRef span origin (ρ.type ty) (ρ.callable target) (typeArgs.map (·.map ρ.type))
      dispatch extension
  | .returnFrom span ty target value =>
    .returnFrom span (ρ.type ty) (ρ.callable target) value
  | .getValue span origin symbol => .getValue span origin (ρ.readable symbol)
  | .setVariable span origin symbol value =>
    .setVariable span origin (ρ.symbol .var symbol) value
  | .block span ty statements => .block span (ρ.type ty) statements
  | .const span ty value => .const span (ρ.type ty) value
  | .when span ty branches => .when span (ρ.type ty) branches
  | .whileLoop span condition body => .whileLoop span condition body
  | .typeOp span ty operator operandTy arg =>
    .typeOp span (ρ.type ty) operator (ρ.type operandTy) arg

variable {ρ ρ' : Renaming} {f g : Node → Node}

/-- Renaming a node leaves its children. -/
theorem children_rename (n : Node) : (n.rename ρ).children = n.children := by
  cases n <;> rfl

/-- A node may be renamed before or after it is given other children. -/
theorem rename_withChildren (n : Node) (cs : List Node) :
    (n.withChildren cs).rename ρ = (n.rename ρ).withChildren cs := by
  cases n <;> rfl

/-- **Renaming twice is renaming once.** -/
theorem rename_rename (n : Node) : (n.rename ρ).rename ρ' = n.rename (ρ.trans ρ') := by
  cases n <;> simp only [rename, ← Renaming.callable_trans, ← Renaming.readable_trans,
    Option.map_map, Function.comp_def, TypeArguments.map_map] <;> rfl

/-- **Only what a node holds is renamed.** -/
theorem rename_congr {n : Node} (h : ρ.AgreesOn ρ' n.mentions n.types) :
    n.rename ρ = n.rename ρ' := by
  have hargs : ∀ typeArgs : Option TypeArguments,
      (∀ t ∈ (typeArgs.elim [] TypeArguments.entries).map fun e => e.2, t ∈ n.types) →
        typeArgs.map (·.map ρ.type) = typeArgs.map (·.map ρ'.type) := by
    rintro (_ | args) hall
    · rfl
    · refine congrArg some (TypeArguments.map_congr fun e he => h.type _ (hall _ ?_))
      exact List.mem_map_of_mem he
  cases n with
  | classDecl | functionDecl | constructorDecl | variableDecl | setVariable =>
    simp only [rename, h.symbol _ _ (.head _)]
  | call span origin ty callee typeArgs superClass =>
    have hsuper : superClass.map (ρ.symbol .cls) = superClass.map (ρ'.symbol .cls) := by
      refine Option.map_congr fun c hc => h.symbol .cls c (.tail _ ?_)
      rw [hc]
      exact .head _
    simp only [rename, h.type ty (.head _), h.callable (.head _), hsuper,
      hargs typeArgs fun t ht => .tail _ ht]
  | callableRef span origin ty target typeArgs =>
    simp only [rename, h.type ty (.head _), h.callable (.head _),
      hargs typeArgs fun t ht => .tail _ ht]
  | returnFrom => simp only [rename, h.type _ (.head _), h.callable (.head _)]
  | getValue => simp only [rename, h.readable (.head _)]
  | block | const | «when» => simp only [rename, h.type _ (.head _)]
  | whileLoop => rfl
  | typeOp => simp only [rename, h.type _ (.head _), h.type _ (.tail _ (.head _))]

/-- A renaming that changes nothing that the node holds does not change the node. -/
theorem rename_eq_self {n : Node}
    (hsymbols : ∀ (k : Kind) (id : SymbolId k), id.symbol ∈ n.mentions → ρ.symbol k id = id)
    (htypes : ∀ t ∈ n.types, ρ.type t = t) : n.rename ρ = n := by
  have hargs : ∀ typeArgs : Option TypeArguments,
      typeArgs.map (·.map fun t => t) = typeArgs := by
    rintro (_ | args) <;> simp [TypeArguments.map]
  have hcallable : ∀ c : Callable, Renaming.callable ⟨fun _ id => id, fun t => t⟩ c = c := by
    rintro (id | id) <;> rfl
  have hreadable : ∀ r : Readable, Renaming.readable ⟨fun _ id => id, fun t => t⟩ r = r := by
    rintro (id | id) <;> rfl
  have hnothing : ρ.AgreesOn ⟨fun _ id => id, fun t => t⟩ n.mentions n.types :=
    ⟨hsymbols, htypes⟩
  rw [rename_congr hnothing]
  cases n <;> simp only [rename, hargs, hcallable, hreadable, Option.map_id']

/-! ### Trees -/

/-- Slots filled twice hold what they were filled with last. -/
theorem fillSlots_fillSlots {slots : List (Option Node)} {cs ds : List Node}
    (h : cs.length = ds.length) : fillSlots (fillSlots slots cs) ds = fillSlots slots ds := by
  induction slots generalizing cs ds with
  | nil => cases cs <;> rfl
  | cons slot slots ih =>
    cases slot with
    | none => simp only [fillSlots, ih h]
    | some n =>
      cases cs with
      | nil =>
        obtain rfl := List.eq_nil_of_length_eq_zero h.symm
        rfl
      | cons c cs =>
        obtain ⟨d, ds, rfl⟩ := List.exists_cons_of_length_eq_add_one h.symm
        simp only [fillSlots, ih (Nat.succ.inj h)]

/-- Branches filled twice hold what they were filled with last. -/
theorem fillBranches_fillBranches {branches : List (Node × Node)} {cs ds : List Node}
    (h : cs.length = ds.length) :
    fillBranches (fillBranches branches cs) ds = fillBranches branches ds := by
  induction branches generalizing cs ds with
  | nil => cases cs <;> rfl
  | cons branch branches ih =>
    match cs, ds, h with
    | [], [], _ => rfl
    | [c], [d], _ => rfl
    | c :: c' :: cs, d :: d' :: ds, h =>
      have hrest : cs.length = ds.length := by simpa using h
      simp only [fillBranches, ih hrest]

/-- Of three heads the last one counts. -/
theorem headD_headD {cs ds : List Node} (h : cs.length = ds.length) (n : Node) :
    ds.headD (cs.headD n) = ds.headD n := by
  cases ds with
  | nil =>
    obtain rfl := List.eq_nil_of_length_eq_zero h
    rfl
  | cons d ds => rfl

/-- A place filled twice holds what it was filled with last. -/
theorem map_headD_headD {cs ds : List Node} (h : cs.length = ds.length) (place : Option Node) :
    (place.map cs.headD).map ds.headD = place.map ds.headD := by
  cases place with
  | none => rfl
  | some n => exact congrArg some (headD_headD h n)

/-- A node changed in its place is still one node, or still none. -/
theorem length_toList_map (place : Option Node) (f : Node → Node) :
    (place.map f).toList.length = place.toList.length := by
  cases place <;> rfl

/-- New children take the place of new children. -/
theorem withChildren_withChildren {n : Node} {cs ds : List Node} (h : cs.length = ds.length) :
    (n.withChildren cs).withChildren ds = n.withChildren ds := by
  have hdrop : ∀ k, (cs.drop k).length = (ds.drop k).length := by simp [h]
  cases n with
  | classDecl | block | getValue | const => rfl
  | functionDecl | variableDecl => simp only [withChildren, map_headD_headD h]
  | constructorDecl | returnFrom | setVariable | typeOp => simp only [withChildren, headD_headD h]
  | call span origin ty callee typeArgs superClass dispatch extension args =>
    have hargs : (cs.drop dispatch.toList.length |>.drop extension.toList.length).length =
        (ds.drop dispatch.toList.length |>.drop extension.toList.length).length := by simp [h]
    simp only [withChildren, length_toList_map, map_headD_headD h, map_headD_headD (hdrop _),
      fillSlots_fillSlots hargs]
  | callableRef =>
    simp only [withChildren, length_toList_map, map_headD_headD h, map_headD_headD (hdrop _)]
  | «when» => simp only [withChildren, fillBranches_fillBranches h]
  | whileLoop => simp only [withChildren, headD_headD h, headD_headD (hdrop 1)]

/-- Two passes over a tree are one. -/
theorem transform_transform (hg : ∀ n, (g n).children.length = n.children.length)
    (hf : ∀ n cs, f (n.withChildren cs) = (f n).withChildren cs) (n : Node) :
    transform f (transform g n) = transform (fun m => f (g m)) n := by
  induction n using induction_children with
  | step n ih =>
    have hchildren : (transform g n).children = n.children.map (transform g) :=
      children_transform hg n
    rw [transform_eq f, hchildren, transform_eq g, hf, List.map_map, transform_eq _ n,
      withChildren_withChildren (by simp)]
    exact congrArg _ (List.map_congr_left ih)

/-- A pass over the whole tree that leaves the root as it is, after one below the root. -/
theorem transform_transformBelow (hg : ∀ n, (g n).children.length = n.children.length)
    (hf : ∀ n cs, f (n.withChildren cs) = (f n).withChildren cs) {root : Node}
    (hroot : f root = root) :
    transform f (transformBelow g root) = transformBelow (fun m => f (g m)) root := by
  rw [transform_eq f, children_transformBelow, transformBelow, hf, hroot, List.map_map,
    transformBelow, withChildren_withChildren (by simp)]
  exact congrArg _ (List.map_congr_left fun c _ => transform_transform hg hf c)

/-- Two passes below the root are one. -/
theorem transformBelow_transformBelow (hg : ∀ n, (g n).children.length = n.children.length)
    (hf : ∀ n cs, f (n.withChildren cs) = (f n).withChildren cs) (root : Node) :
    transformBelow f (transformBelow g root) = transformBelow (fun m => f (g m)) root := by
  rw [transformBelow, children_transformBelow, transformBelow, List.map_map, transformBelow,
    withChildren_withChildren (by simp)]
  exact congrArg _ (List.map_congr_left fun c _ => transform_transform hg hf c)

/-- Changes that agree on the nodes of a tree change the tree alike. -/
theorem transform_congr {n : Node} (h : ∀ m ∈ n :: n.descendants, f m = g m) :
    transform f n = transform g n := by
  induction n using induction_children with
  | step n ih =>
    rw [transform_eq, transform_eq, h n (.head _)]
    exact congrArg _ (List.map_congr_left fun c hc => ih c hc fun m hm =>
      h m (.tail _ (descendants_of_child hc hm)))

/-- Changes that agree on the nodes below a root change what is below it alike. -/
theorem transformBelow_congr {root : Node} (h : ∀ m ∈ root.descendants, f m = g m) :
    transformBelow f root = transformBelow g root :=
  congrArg _ (List.map_congr_left fun _ hc => transform_congr fun m hm =>
    h m (descendants_of_child hc hm))

end Node

/-! ### Relabelling is renaming -/

namespace CopyMap

variable {map : CopyMap} {τ : TypeId → TypeId}

/-- Every symbol becomes its copy, if it has one, and types are exchanged by `τ`. -/
def toRenaming (map : CopyMap) (τ : TypeId → TypeId) : Renaming where
  symbol _ := map.redirect
  type := τ

/-- Copies rename a symbol to its copy. -/
@[simp]
theorem symbol_toRenaming (k : Kind) : (map.toRenaming τ).symbol k = map.redirect := rfl

/-- Copies rename types as they are told to. -/
@[simp]
theorem type_toRenaming : (map.toRenaming τ).type = τ := rfl

/-- Copies rename a callable to its copy, if it has one. -/
theorem callable_toRenaming (c : Callable) :
    (map.toRenaming τ).callable c = (map.callable? c).getD c := by
  cases c with
  | fn id | ctor id =>
    simp only [toRenaming, Renaming.callable, callable?, redirect]
    cases map.get? id <;> rfl

/-- Copies rename a readable to its copy, if it has one. -/
theorem readable_toRenaming (r : Readable) :
    (map.toRenaming τ).readable r = (map.readable? r).getD r := by
  cases r with
  | var id | param id =>
    simp only [toRenaming, Renaming.readable, readable?, redirect]
    cases map.get? id <;> rfl

/-- A callable has no copy just when it is not a key. -/
theorem callable?_eq_none_iff {c : Callable} : map.callable? c = none ↔ c.symbol ∉ map.keys := by
  cases c with
  | fn id | ctor id =>
    rw [Callable.symbol, ← get?_eq_none_iff, callable?, Option.map_eq_none_iff]

end CopyMap

namespace Node

/-- The target of a callable reference or a return. -/
def anchor? : Node → Option Callable
  | .callableRef _ _ _ target .. => some target
  | .returnFrom _ _ target _ => some target
  | _ => none

/-- A node moves if its types are exchanged: its anchor, if it has one, is among the symbols
that are copied. -/
def Moves (n : Node) (keys : List Symbol) : Prop :=
  ∀ target ∈ n.anchor?, target.symbol ∈ keys

instance (n : Node) (keys : List Symbol) : Decidable (n.Moves keys) :=
  inferInstanceAs (Decidable (∀ target ∈ n.anchor?, target.symbol ∈ keys))

/-- The node renamed, if it moves. -/
def exchange (keys : List Symbol) (ρ : Renaming) (n : Node) : Node :=
  if n.Moves keys then n.rename ρ else n

variable {map : CopyMap} {τ : TypeId → TypeId} {n : Node} {keys keys' : List Symbol}
  {ρ ρ' : Renaming}

/-- A node that moves is renamed. -/
theorem exchange_of_moves (h : n.Moves keys) : n.exchange keys ρ = n.rename ρ := if_pos h

/-- A node that does not move stays as it is. -/
theorem exchange_of_not_moves (h : ¬ n.Moves keys) : n.exchange keys ρ = n := if_neg h

/-- Whether a node moves depends only on which symbols are copied. -/
theorem moves_congr (h : ∀ a, a ∈ keys ↔ a ∈ keys') : n.Moves keys ↔ n.Moves keys' :=
  forall₂_congr fun target _ => h target.symbol

/-- What is exchanged depends only on which symbols are copied. -/
theorem exchange_congr (h : ∀ a, a ∈ keys ↔ a ∈ keys') : exchange keys ρ = exchange keys' ρ := by
  funext n
  simp only [exchange, moves_congr h]

/-- The anchor of a node is among what it mentions. -/
theorem anchor_mem_mentions {target : Callable} (h : target ∈ n.anchor?) :
    target.symbol ∈ n.mentions := by
  cases n <;> cases h <;> exact .head _

/-- A renamed node has the renamed anchor. -/
theorem anchor?_rename (n : Node) : (n.rename ρ).anchor? = n.anchor?.map ρ.callable := by
  cases n <;> rfl

/-- A renamed node has the renamed types. -/
theorem types_rename (n : Node) : (n.rename ρ).types = n.types.map ρ.type := by
  have hargs : ∀ typeArgs : Option TypeArguments,
      (((typeArgs.map (·.map ρ.type)).elim [] TypeArguments.entries).map fun e => e.2) =
        ((typeArgs.elim [] TypeArguments.entries).map fun e => e.2).map ρ.type := by
    rintro (_ | ⟨entries⟩)
    · rfl
    · simp [TypeArguments.map]
  cases n with
  | call span origin ty callee typeArgs => exact congrArg (List.cons (ρ.type ty)) (hargs typeArgs)
  | callableRef span origin ty target typeArgs =>
    exact congrArg (List.cons (ρ.type ty)) (hargs typeArgs)
  | _ => rfl

/-- Exchanging a node leaves its children. -/
theorem children_exchange (n : Node) : (n.exchange keys ρ).children = n.children := by
  unfold exchange
  split
  · exact n.children_rename
  · rfl

/-- Every node below the root is exchanged in its place. -/
theorem descendants_exchange (keys : List Symbol) (ρ : Renaming) (root : Node) :
    (root.transformBelow (exchange keys ρ)).descendants =
      root.descendants.map (transform (exchange keys ρ)) :=
  descendants_transformBelow (fun n => by rw [children_exchange]) root

/-- Whether a node moves does not depend on its children. -/
theorem moves_withChildren (n : Node) (cs : List Node) :
    (n.withChildren cs).Moves keys ↔ n.Moves keys := by
  cases n <;> exact Iff.rfl

/-- A node may be exchanged before or after it is given other children. -/
theorem exchange_withChildren (n : Node) (cs : List Node) :
    (n.withChildren cs).exchange keys ρ = (n.exchange keys ρ).withChildren cs := by
  simp only [exchange, moves_withChildren]
  split
  · exact n.rename_withChildren cs
  · rfl

/-- A node that moves is relabelled by renaming. -/
theorem relabel_of_moves (h : n.Moves map.keys) :
    n.relabel map τ = n.rename (map.toRenaming τ) := by
  cases n with
  | callableRef span origin ty target | returnFrom span ty target =>
    obtain ⟨copy, hcopy⟩ := Option.ne_none_iff_exists'.1
      (mt CopyMap.callable?_eq_none_iff.1 (not_not.2 (h target rfl)))
    simp only [relabel, rename, CopyMap.callable_toRenaming, hcopy, Option.getD_some,
      CopyMap.type_toRenaming]
  | call | getValue =>
    simp only [relabel, rename, CopyMap.callable_toRenaming, CopyMap.readable_toRenaming,
      CopyMap.symbol_toRenaming, CopyMap.type_toRenaming]
  | _ => rfl

/-- A node that does not move is not relabelled. -/
theorem relabel_of_not_moves (h : ¬ n.Moves map.keys) : n.relabel map τ = n := by
  have hnot : ∃ target ∈ n.anchor?, map.callable? target = none := by
    simpa only [Moves, not_forall, exists_prop, CopyMap.callable?_eq_none_iff] using h
  obtain ⟨target, hanchor, hnone⟩ := hnot
  cases n with
  | callableRef | returnFrom =>
    obtain rfl := Option.some.inj hanchor
    simp only [relabel, hnone]
  | _ => cases hanchor

/-- **Relabelling is renaming what moves.** -/
theorem relabel_eq_exchange (map : CopyMap) (τ : TypeId → TypeId) :
    relabel map τ = exchange map.keys (map.toRenaming τ) := by
  funext n
  by_cases h : n.Moves map.keys
  · rw [relabel_of_moves h, exchange_of_moves h]
  · rw [relabel_of_not_moves h, exchange_of_not_moves h]

/-- All the types of a node that moves are substituted. -/
theorem substituted_of_moves (h : n.Moves map.keys) : n.substituted map = n.types := by
  cases n with
  | callableRef span origin ty target | returnFrom span ty target =>
    have hcopied := mt CopyMap.callable?_eq_none_iff.1 (not_not.2 (h target rfl))
    rw [substituted, if_pos (Option.isSome_iff_ne_none.2 hcopied)]
  | _ => rfl

end Node

/-! ### Records -/

/-- The record with its symbols and types renamed. -/
def Record.rename (ρ : Renaming) : (k : Kind) → Record k → Record k
  | .cls, r =>
    { r with
      owner := ρ.owner r.owner
      supertypes := r.supertypes.map ρ.type
      constructors := r.constructors.map (ρ.symbol .ctor)
      primary := r.primary.map (ρ.symbol .ctor) }
  | .fn, r =>
    { r with
      owner := ρ.owner r.owner
      params := r.params.map (ρ.symbol .param)
      returnType := ρ.type r.returnType
      extensionReceiver := r.extensionReceiver.map ρ.type
      dispatchReceiver := r.dispatchReceiver.map ρ.type }
  | .ctor, r =>
    { r with
      cls := ρ.symbol .cls r.cls
      params := r.params.map (ρ.symbol .param)
      returnType := ρ.type r.returnType
      dispatchReceiver := r.dispatchReceiver.map ρ.type }
  | .var, r => { r with owner := ρ.owner r.owner, ty := ρ.type r.ty }
  | .param, r =>
    { r with
      owner := ρ.callable r.owner
      derivedFrom := r.derivedFrom.map (ρ.symbol .param)
      ty := ρ.type r.ty
      varargElement := r.varargElement.map ρ.type }
  | .typeParam, r => { r with owner := ρ.owner r.owner, ty := ρ.type r.ty }

/-- The record without its name, if this is one that copies are given anew: those of classes,
variables and of functions other than `invoke` operators. -/
def Record.unnamed : (k : Kind) → Record k → Record k
  | .cls, r => { r with name := .empty }
  | .fn, r => if r.isTypeInvoke then r else { r with name := .empty }
  | .ctor, r => r
  | .var, r => { r with name := .empty }
  | .param, r => r
  | .typeParam, r => r

/-- The renaming leaves all symbols and types of the program alone. -/
structure Renaming.Fixes (ρ : Renaming) (program : Program) : Prop where
  symbol : ∀ (k : Kind) (id : SymbolId k), program.symbols.Allocated id.symbol →
    ρ.symbol k id = id
  type : ∀ t, program.pool.Has t → ρ.type t = t

namespace Renaming.Fixes

variable {ρ : Renaming} {program : Program}

/-- The owner of a symbol of the program stays the same. -/
theorem owner (h : ρ.Fixes program) {o : Owner}
    (ho : ∀ s ∈ o.symbols, program.symbols.Allocated s) :
    ρ.owner o = o := by
  cases o with
  | module => rfl
  | fn id => exact congrArg Owner.fn (h.symbol .fn id (ho _ (.head _)))
  | cls id => exact congrArg Owner.cls (h.symbol .cls id (ho _ (.head _)))
  | ctor id => exact congrArg Owner.ctor (h.symbol .ctor id (ho _ (.head _)))

/-- A node of the program is not changed. -/
theorem rename_node (h : ρ.Fixes program) {n : Node} (hn : n.KnownTo program) : n.rename ρ = n :=
  Node.rename_eq_self (fun k id hid => h.symbol k id (hn.mention hid)) fun t ht =>
    h.type t (hn.types t ht)

end Renaming.Fixes

end Graft
