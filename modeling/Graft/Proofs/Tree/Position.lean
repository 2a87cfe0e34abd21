/-
# Positions in a tree

A node is found in a tree by a path, which says at each step to which child to go (`Node.at?`).
Paths are ordered like words in a dictionary: a path comes before those that go on from it, and of
two that part, the one that goes to the earlier child comes first.  This is the order in which a
walk meets the nodes (`Node.located_sorted`).  So what a walk finds first is what is found at the
least path (`Node.findSome?_descendants`).
-/

import Graft.Tree.Walk
import Mathlib.Data.List.Basic

namespace Graft

/-- What is found first in a sorted list is found at its least element that gives anything. -/
theorem findSome?_of_pairwise {α β : Type} (lt : α → α → Prop) {f : α → Option β} {l : List α}
    (hasymm : ∀ {a b}, lt a b → ¬lt b a) (hl : l.Pairwise lt) {b : β} :
    l.findSome? f = some b ↔
      ∃ a ∈ l, f a = some b ∧ ∀ earlier ∈ l, lt earlier a → f earlier = none := by
  rw [List.findSome?_eq_some_iff]
  constructor
  · rintro ⟨before, a, after, rfl, ha, hbefore⟩
    obtain ⟨-, hafter, -⟩ := List.pairwise_append.1 hl
    refine ⟨a, List.mem_append_right _ (.head _), ha, fun earlier hmem hlt => ?_⟩
    rcases List.mem_append.1 hmem with hmem | hmem
    · exact hbefore earlier hmem
    · -- nothing from `a` on comes before `a`
      rcases List.mem_cons.1 hmem with rfl | hmem
      · exact absurd hlt (hasymm hlt)
      · exact absurd hlt (hasymm ((List.pairwise_cons.1 hafter).1 earlier hmem))
  · rintro ⟨a, hmem, ha, hnone⟩
    obtain ⟨before, after, rfl⟩ := List.append_of_mem hmem
    have hbefore := (List.pairwise_append.1 hl).2.2
    exact ⟨before, a, after, rfl, ha, fun earlier he =>
      hnone earlier (List.mem_append_left _ he) (hbefore earlier he a (.head _))⟩

namespace Node

/-- The node that a path leads to, if there is one. -/
def at? (root : Node) : List Nat → Option Node
  | [] => some root
  | i :: path => root.children[i]?.bind fun c => c.at? path

/-- A path leads through one child, and then on below that child. -/
theorem at?_cons_eq_some {root n : Node} {i : Nat} {path : List Nat} :
    root.at? (i :: path) = some n ↔ ∃ c, root.children[i]? = some c ∧ c.at? path = some n :=
  Option.bind_eq_some_iff

/-- The nodes of a tree with the paths to them, as a walk meets them. -/
def located : Node → List (List Nat × Node) :=
  fold fun n below =>
    ([], n) :: below.zipIdx.flatMap fun part => part.1.map fun found =>
      (part.2 :: found.1, found.2)

/-- The nodes of a tree with their paths: the root, then each child's, with its position in front.
-/
theorem located_eq (n : Node) :
    n.located = ([], n) :: n.children.zipIdx.flatMap fun part => part.1.located.map fun found =>
      (part.2 :: found.1, found.2) := by
  rw [located, fold_eq, List.zipIdx_map, List.flatMap_map]
  rfl

/-- **Every node is where its path leads.** -/
theorem mem_located {root n : Node} {path : List Nat} :
    (path, n) ∈ root.located ↔ root.at? path = some n := by
  induction path generalizing root with
  | nil =>
    rw [located_eq, List.mem_cons, at?, Option.some_inj, eq_comm (a := root)]
    constructor
    · rintro (h | h)
      · exact (Prod.mk.inj h).2
      · obtain ⟨part, -, h⟩ := List.mem_flatMap.1 h
        obtain ⟨found, -, h⟩ := List.mem_map.1 h
        cases (Prod.mk.inj h).1
    · rintro rfl
      exact .inl rfl
  | cons i path ih =>
    rw [located_eq, List.mem_cons, at?_cons_eq_some]
    constructor
    · rintro (h | h)
      · cases (Prod.mk.inj h).1
      · obtain ⟨part, hpart, h⟩ := List.mem_flatMap.1 h
        obtain ⟨found, hfound, h⟩ := List.mem_map.1 h
        cases h
        exact ⟨part.1, List.mem_zipIdx_iff_getElem?.1 hpart, ih.1 hfound⟩
    · rintro ⟨c, hc, hn⟩
      refine .inr (List.mem_flatMap.2 ⟨(c, i), List.mk_mem_zipIdx_iff_getElem?.2 hc, ?_⟩)
      exact List.mem_map.2 ⟨(path, n), ih.2 hn, rfl⟩

/-- **A walk meets the nodes in the order of their paths.** -/
theorem located_sorted (n : Node) : n.located.Pairwise fun a b => a.1 < b.1 := by
  induction n using induction_children with
  | step n ih =>
    rw [located_eq, List.pairwise_cons, List.pairwise_flatMap]
    refine ⟨fun found hfound => ?_, fun part hpart => ?_, ?_⟩
    · obtain ⟨part, -, h⟩ := List.mem_flatMap.1 hfound
      obtain ⟨below, -, rfl⟩ := List.mem_map.1 h
      exact List.nil_lt_cons _ _
    · have hchild : part.1 ∈ n.children :=
        List.mem_of_getElem? (List.mem_zipIdx_iff_getElem?.1 hpart)
      exact List.pairwise_map.2 ((ih _ hchild).imp List.cons_lt_cons_self.2)
    · -- paths through different children part at the first step
      have hindices : (n.children.zipIdx.map Prod.snd).Pairwise (· < ·) := by
        rw [List.zipIdx_map_snd]
        exact List.pairwise_lt_range' 1
      refine (List.pairwise_map.1 hindices).imp fun hlt a ha b hb => ?_
      obtain ⟨below, -, rfl⟩ := List.mem_map.1 ha
      obtain ⟨below', -, rfl⟩ := List.mem_map.1 hb
      exact List.cons_lt_cons_iff.2 (.inl hlt)

/-- Without their paths they are the nodes in preorder. -/
theorem map_snd_located (n : Node) : n.located.map Prod.snd = n :: n.descendants := by
  induction n using induction_children with
  | step n ih =>
    have hparts : ∀ part ∈ n.children.zipIdx,
        (part.1.located.map fun found => (part.2 :: found.1, found.2)).map Prod.snd =
          part.1 :: part.1.descendants := by
      intro part hpart
      rw [List.map_map, ← ih _ (List.mem_of_getElem? (List.mem_zipIdx_iff_getElem?.1 hpart))]
      rfl
    rw [located_eq, List.map_cons, List.map_flatMap, List.flatMap_congr hparts, descendants_eq]
    conv => rhs; rw [← List.zipIdx_map_fst 0 n.children, List.flatMap_map]

/-- The descendants are the nodes found, without the root. -/
theorem descendants_eq_map (n : Node) : n.descendants = n.located.tail.map Prod.snd := by
  rw [List.map_tail, map_snd_located, List.tail_cons]

/-- Below the root of a tree are the nodes that a step leads to. -/
theorem mem_tail_located {root n : Node} {path : List Nat} :
    (path, n) ∈ root.located.tail ↔ path ≠ [] ∧ root.at? path = some n := by
  have hhead : root.located = ([], root) :: root.located.tail := by
    rw [located_eq]
    rfl
  have hsorted := root.located_sorted
  rw [hhead, List.pairwise_cons] at hsorted
  rw [← mem_located]
  conv => rhs; rw [hhead, List.mem_cons]
  constructor
  · intro h
    refine ⟨?_, .inr h⟩
    rintro rfl
    exact List.lt_irrefl [] (hsorted.1 ([], n) h)
  · rintro ⟨hne, h | h⟩
    · exact absurd (Prod.mk.inj h).1 hne
    · exact h

/-- The descendants of a node are the nodes a path that is not empty leads to. -/
theorem mem_descendants_iff {root n : Node} :
    n ∈ root.descendants ↔ ∃ path, path ≠ [] ∧ root.at? path = some n := by
  rw [descendants_eq_map, List.mem_map]
  constructor
  · rintro ⟨⟨path, n⟩, h, rfl⟩
    exact ⟨path, mem_tail_located.1 h⟩
  · rintro ⟨path, h⟩
    exact ⟨(path, n), mem_tail_located.2 h, rfl⟩

/-- **What is found first below the root is what is found at the least path.** -/
theorem findSome?_descendants {α : Type} {f : Node → Option α} {root : Node} {a : α} :
    root.descendants.findSome? f = some a ↔
      ∃ path n, path ≠ [] ∧ root.at? path = some n ∧ f n = some a ∧
        ∀ earlier m, earlier ≠ [] → earlier < path → root.at? earlier = some m → f m = none := by
  have hsorted : root.located.tail.Pairwise fun a b => a.1 < b.1 :=
    root.located_sorted.sublist (List.tail_sublist _)
  rw [descendants_eq_map, List.findSome?_map,
    findSome?_of_pairwise (fun a b => a.1 < b.1) List.lt_asymm hsorted]
  simp only [Prod.exists, Prod.forall, mem_tail_located, Function.comp_apply]
  constructor
  · rintro ⟨path, n, ⟨hne, hn⟩, hfound, hnone⟩
    exact ⟨path, n, hne, hn, hfound, fun earlier m hm hlt hat => hnone earlier m ⟨hm, hat⟩ hlt⟩
  · rintro ⟨path, n, hne, hn, hfound, hnone⟩
    exact ⟨path, n, ⟨hne, hn⟩, hfound, fun earlier m hm hlt => hnone earlier m hm.1 hlt hm.2⟩

end Node

end Graft
