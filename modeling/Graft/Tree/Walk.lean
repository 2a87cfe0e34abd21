/-
# Walking a tree

A walk meets a node, then what is below it, child by child (`walk_eq`).  The
outline of a tree is the full walk from its root; the descendants of a node are
what the outline meets after the node itself (`descendants_eq`).
-/

import Graft.Tree.Fold

namespace Graft

namespace Node

/-- The nodes met by a walk that goes below a node only if `descend` says so, in
front of what comes after. -/
def walkOnto (descend : Node → Bool) : Node → Nat → List (Nat × Node) → List (Nat × Node) :=
  fold fun n below depth after =>
    (depth, n) ::
      if descend n then below.foldr (fun b after => b (depth + 1) after) after else after

/-- The nodes met by a walk that goes below a node only if `descend` says so,
each with its depth and before its children.  The walk begins with the node
itself, at the given depth. -/
def walk (descend : Node → Bool) (depth : Nat) (n : Node) : List (Nat × Node) :=
  walkOnto descend n depth []

/-- All nodes of a tree with their depths, each before its children. -/
def outline (n : Node) : List (Nat × Node) := n.walk (fun _ => true) 0

/-- All nodes strictly below a node, each before its own children. -/
def descendants (n : Node) : List Node := n.outline.tail.map (·.2)

/-- The node is met first, and then the walk goes through the children. -/
theorem walkOnto_eq (descend : Node → Bool) (n : Node) (depth : Nat)
    (after : List (Nat × Node)) :
    walkOnto descend n depth after =
      (depth, n) ::
        if descend n then
          n.children.foldr (fun c after => walkOnto descend c (depth + 1) after) after
        else after := by
  rw [walkOnto, fold_eq, List.foldr_map]

/-- What comes after a walk does not matter to it. -/
theorem walkOnto_append (descend : Node → Bool) (n : Node) (depth : Nat)
    (after : List (Nat × Node)) :
    walkOnto descend n depth after = n.walk descend depth ++ after := by
  induction n using induction_children generalizing depth after with
  | step n ih =>
    have below : ∀ ns : List Node, (∀ c ∈ ns, c ∈ n.children) → ∀ after,
        ns.foldr (fun c after => walkOnto descend c (depth + 1) after) after =
          ns.flatMap (walk descend (depth + 1)) ++ after := by
      intro ns hns after
      induction ns with
      | nil => rfl
      | cons c ns ihn =>
        simp [ihn fun c h => hns c (.tail _ h), ih c (hns c (.head _))]
    rw [walk, walkOnto_eq, walkOnto_eq]
    split <;> simp [below _ fun _ => id]

/-- A walk meets the node and then, if it goes below, what the walks from its
children meet. -/
theorem walk_eq (descend : Node → Bool) (depth : Nat) (n : Node) :
    n.walk descend depth =
      (depth, n) :: if descend n then n.children.flatMap (walk descend (depth + 1)) else [] := by
  rw [walk, walkOnto_eq]
  split
  · congr 1
    induction n.children with
    | nil => rfl
    | cons c ns ih => rw [List.foldr_cons, ih, walkOnto_append, List.flatMap_cons]
  · rfl

/-- Depths are counted from where a walk begins. -/
theorem map_snd_walk (descend : Node → Bool) (d d' : Nat) (n : Node) :
    (n.walk descend d).map (·.2) = (n.walk descend d').map (·.2) := by
  induction n using induction_children generalizing d d' with
  | step n ih =>
    rw [walk_eq, walk_eq]
    split
    · simp only [List.map_cons, List.map_flatMap]
      congr 1
      rw [List.flatMap_def, List.flatMap_def, List.map_congr_left fun c h => ih c h _ _]
    · rfl

/-- Below a node are its children and what is below them. -/
theorem descendants_eq (n : Node) :
    n.descendants = n.children.flatMap fun c => c :: c.descendants := by
  rw [descendants, outline, walk_eq, if_pos rfl, List.tail_cons, List.map_flatMap,
    List.flatMap_def, List.flatMap_def]
  refine congrArg _ (List.map_congr_left fun c _ => ?_)
  rw [map_snd_walk _ _ 0, descendants, outline, walk_eq]
  rfl

end Node

end Graft
