/-
# Dangling references

A finished copy must not mention a symbol that was copied.  The root of a tree keeps its own
symbols; only what is below it is visited.  A visit hands on the first mention that was found and
looks no further once there is one, so what it finds is the first in evaluation order
(`dangling?_eq`).
-/

import Graft.Copy.Map
import Graft.Tree.Walk

namespace Graft

namespace CopyMap

variable {map : CopyMap}

/-- The first mention of a copied symbol after a visit of a node and of what is below it, given the
first one before the visit.  If there was one, nothing is looked at. -/
def visit (map : CopyMap) : Node → Option Symbol → Option Symbol :=
  Node.fold fun n below first =>
    if first.isSome then
      first
    else
      match n.mentions.find? map.isCopied with
      | some a => some a
      | none => below.foldl (fun first visit => visit first) first

/-- The first mention of a copied symbol below the root of a tree. -/
def dangling? (map : CopyMap) (root : Node) : Option Symbol :=
  root.children.foldl (fun first n => map.visit n first) none

/-- Check that nothing below the root of a tree mentions a copied symbol. -/
def check (map : CopyMap) (root : Node) : Except Rejection Unit :=
  match map.dangling? root with
  | none => .ok ()
  | some s => .error (.dangling s)

/-- What is below a node is visited child by child. -/
theorem visit_eq (map : CopyMap) (n : Node) (first : Option Symbol) :
    map.visit n first =
      if first.isSome then
        first
      else
        match n.mentions.find? map.isCopied with
        | some a => some a
        | none => n.children.foldl (fun first c => map.visit c first) first := by
  rw [visit, Node.fold_eq, List.foldl_map]

/-- A mention that was found is still the first one after more visits. -/
theorem visits_some (map : CopyMap) (ns : List Node) (a : Symbol) :
    ns.foldl (fun first n => map.visit n first) (some a) = some a := by
  induction ns with
  | nil => rfl
  | cons n ns ih => rw [List.foldl_cons, visit_eq, if_pos Option.isSome_some, ih]

/-- Visits of nodes one after the other find the first mention in any of their trees. -/
theorem visits_none {ns : List Node}
    (h : ∀ n ∈ ns, map.visit n none =
      (n :: n.descendants).findSome? fun m => m.mentions.find? map.isCopied) :
    ns.foldl (fun first n => map.visit n first) none =
      (ns.flatMap fun n => n :: n.descendants).findSome? fun m =>
        m.mentions.find? map.isCopied := by
  induction ns with
  | nil => rfl
  | cons n ns ih =>
    rw [List.foldl_cons, List.flatMap_cons, List.findSome?_append, ← h n (.head _)]
    cases map.visit n none with
    | none => exact ih fun m hm => h m (.tail _ hm)
    | some a => exact map.visits_some ns a

/-- A visit finds the first mention in the tree. -/
theorem visit_none (map : CopyMap) (n : Node) :
    map.visit n none =
      (n :: n.descendants).findSome? fun m => m.mentions.find? map.isCopied := by
  induction n using Node.induction_children with
  | step n ih =>
    rw [visit_eq, if_neg nofun, visits_none ih, ← Node.descendants_eq, List.findSome?_cons]
    cases n.mentions.find? map.isCopied <;> rfl

/-- **Stopping at the first mention finds the first mention:** the nodes below the root are met in
preorder. -/
theorem dangling?_eq (map : CopyMap) (root : Node) :
    map.dangling? root = root.descendants.findSome? fun n => n.mentions.find? map.isCopied := by
  rw [dangling?, visits_none fun n _ => map.visit_none n, ← Node.descendants_eq]

end CopyMap

end Graft
