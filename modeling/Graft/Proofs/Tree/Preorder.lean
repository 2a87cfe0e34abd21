/-
# Nodes in preorder

`Node.preorder` lists the nodes of some trees, each node before what is below it.
Wherever a node stands in the list, what is below it comes right behind it
(`Node.descendants_follow`), so the list can be taken apart at any node.
-/

import Graft.Tree.Walk

namespace Graft

namespace Node

/-- The nodes of some trees, each before those below it. -/
def preorder (ns : List Node) : List Node := ns.flatMap fun n => n :: n.descendants

/-- The children of a node, in preorder, are its descendants. -/
theorem preorder_children (n : Node) : preorder n.children = n.descendants := n.descendants_eq.symm

/-- The first tree comes before the trees that follow it. -/
theorem preorder_cons (n : Node) (ns : List Node) :
    preorder (n :: ns) = n :: (n.descendants ++ preorder ns) := rfl

/-- The preorder of trees put one after another. -/
theorem preorder_append (ns ms : List Node) : preorder (ns ++ ms) = preorder ns ++ preorder ms :=
  List.flatMap_append

/-- The preorder of one tree is its root and then its descendants. -/
theorem preorder_singleton (n : Node) : preorder [n] = n :: n.descendants := by
  rw [preorder_cons]
  exact congrArg (n :: ·) (List.append_nil _)

/-- An element of two lists in a row is in the first or in the second. -/
theorem split_append {α : Type} {xs ys a c : List α} {x : α} (h : xs ++ ys = a ++ x :: c) :
    (∃ c', xs = a ++ x :: c' ∧ c = c' ++ ys) ∨ ∃ a', a = xs ++ a' ∧ ys = a' ++ x :: c := by
  rcases List.append_eq_append_iff.1 h with ⟨a', ha, hys⟩ | ⟨c', hxs, hc⟩
  · exact .inr ⟨a', ha, hys⟩
  · cases c' with
    | nil => exact .inr ⟨[], by rw [hxs, List.append_nil, List.append_nil], hc.symm⟩
    | cons x' c' =>
      rw [List.cons_append] at hc
      obtain ⟨rfl, rfl⟩ := List.cons.inj hc
      exact .inl ⟨c', hxs, rfl⟩

/-- **What is below a node comes right behind it.** -/
theorem descendants_follow {ns a c : List Node} {n : Node} (h : preorder ns = a ++ n :: c) :
    ∃ b, c = n.descendants ++ b := by
  -- for a list of trees, if it is known of each; then for one tree by induction
  have forest : ∀ ns : List Node, (∀ m ∈ ns, ∀ a c, preorder [m] = a ++ n :: c →
      ∃ b, c = n.descendants ++ b) → ∀ a c, preorder ns = a ++ n :: c →
        ∃ b, c = n.descendants ++ b := by
    intro ns hns
    induction ns with
    | nil =>
      intro a c h
      cases a <;> cases h
    | cons m ms ih =>
      intro a c h
      rw [← List.singleton_append, preorder_append] at h
      rcases split_append h with ⟨c', hm, rfl⟩ | ⟨a', -, hms⟩
      · obtain ⟨b, rfl⟩ := hns m (.head _) a c' hm
        exact ⟨b ++ preorder ms, List.append_assoc ..⟩
      · exact ih (fun m' hm' => hns m' (.tail _ hm')) a' c hms
  have tree : ∀ m : Node, ∀ a c, preorder [m] = a ++ n :: c → ∃ b, c = n.descendants ++ b := by
    intro m
    induction m using induction_children with
    | step m ih =>
      intro a c h
      rw [preorder_singleton] at h
      cases a with
      | nil =>
        obtain ⟨rfl, rfl⟩ := List.cons.inj h
        exact ⟨[], (List.append_nil _).symm⟩
      | cons m' a =>
        rw [← preorder_children] at h
        exact forest m.children ih a c (List.cons.inj h).2
  exact forest ns (fun m _ => tree m) a c h

/-- A node of two lists of trees, with everything below it, is in the first or in the
second. -/
theorem split_preorder {ns ms a b : List Node} {n : Node}
    (h : preorder (ns ++ ms) = a ++ n :: (n.descendants ++ b)) :
    (∃ b', preorder ns = a ++ n :: (n.descendants ++ b')) ∨
      ∃ a', a = preorder ns ++ a' ∧ preorder ms = a' ++ n :: (n.descendants ++ b) := by
  rw [preorder_append] at h
  rcases split_append h with ⟨c', hns, -⟩ | hms
  · obtain ⟨b', rfl⟩ := descendants_follow hns
    exact .inl ⟨b', hns⟩
  · exact .inr hms

end Node

end Graft
