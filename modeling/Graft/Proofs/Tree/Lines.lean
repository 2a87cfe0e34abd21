/-
# Lines and depths

A text that is made of lines, each ended by a line break, is read back line by line
(`Text.lines_eq`).  If the lines stand for the nodes of a tree in preorder and are indented by two
spaces for every level, then how many children a node has is read off the indentation of the lines
behind its own (`Text.childCounts`, `Node.countChildren_depths`).  The depths of the nodes stay the
same if nodes are exchanged in their places (`Node.depths_transformBelow`).
-/

import Graft.Proofs.Tree.Children
import Mathlib.Data.List.Basic

namespace Graft

namespace Text

/-- The text has no line break in it. -/
def Unbroken (text : String) : Prop := '\n' ∉ text.toList

instance (text : String) : Decidable (Unbroken text) :=
  inferInstanceAs (Decidable ('\n' ∉ text.toList))

/-- The lines of a text, without the line breaks that end them. -/
def lines (text : String) : List (List Char) := (text.toList.splitOn '\n').dropLast

/-- The number of spaces that a line begins with. -/
def indent (line : List Char) : Nat := (line.takeWhile (· == ' ')).length

/-- How many children each node of a tree has, given the depths of the nodes in preorder.  The
nodes below a node are those that come behind it until one is not deeper. -/
def countChildren : List Nat → List Nat
  | [] => []
  | depth :: depths =>
    (depths.takeWhile (depth < ·)).count (depth + 1) :: countChildren depths

/-- How many children the node of each line has, told by the indentation of the lines. -/
def childCounts (text : String) : List Nat :=
  countChildren ((lines text).map fun line => indent line / 2)

/-- Splitting at the ends of lines gives the lines back, and one empty text after the last of them.
-/
theorem dropLast_splitOn {ls : List (List Char)} (h : ∀ line ∈ ls, '\n' ∉ line) :
    ((ls.flatMap (· ++ ['\n'])).splitOn '\n').dropLast = ls := by
  induction ls with
  | nil => rfl
  | cons line ls ih =>
    obtain ⟨hline, hls⟩ := List.forall_mem_cons.1 h
    have hsplit : ((line :: ls).flatMap (· ++ ['\n'])).splitOn '\n' =
        line :: (ls.flatMap (· ++ ['\n'])).splitOn '\n' := by
      rw [List.flatMap_cons, List.append_assoc, List.singleton_append, List.splitOn,
        List.splitOnP_append_cons (p := (· == '\n')) line _ (beq_self_eq_true _), ← List.splitOn,
        List.splitOn_eq_singleton hline]
      rfl
    have hne : (ls.flatMap (· ++ ['\n'])).splitOn '\n' ≠ [] := List.splitOnP_ne_nil _ _
    rw [hsplit, List.dropLast_cons_of_ne_nil hne, ih hls]

/-- **Lines are read back** from the text that they make. -/
theorem lines_eq {text : String} {ls : List (List Char)}
    (htext : text.toList = ls.flatMap (· ++ ['\n'])) (h : ∀ line ∈ ls, '\n' ∉ line) :
    lines text = ls := by
  rw [lines, htext, dropLast_splitOn h]

/-- The indentation ends where something else than a space comes. -/
theorem indent_replicate (n : Nat) {line : List Char} (h : ∃ c ∈ line.head?, c ≠ ' ') :
    indent (List.replicate n ' ' ++ line) = n := by
  obtain ⟨c, hc, hne⟩ := h
  obtain ⟨rest, rfl⟩ : ∃ rest, line = c :: rest := List.head?_eq_some_iff.1 hc
  have hspaces : ∀ a ∈ List.replicate n ' ', (a == ' ') = true := fun a ha =>
    beq_iff_eq.2 (List.eq_of_mem_replicate ha)
  rw [indent, List.takeWhile_append_of_pos hspaces,
    List.takeWhile_cons_of_neg (by simpa using hne), List.append_nil, List.length_replicate]

end Text

open Text

namespace Node

/-- The depths of a node and of those below it, in preorder, counted from the given one. -/
def depths (depth : Nat) (n : Node) : List Nat := (n.walk (fun _ => true) depth).map (·.1)

/-- Below a node are the depths of what is below its children, one level down. -/
theorem depths_eq (depth : Nat) (n : Node) :
    n.depths depth = depth :: n.children.flatMap (depths (depth + 1)) := by
  rw [depths, walk_eq, if_pos rfl, List.map_cons, List.map_flatMap]
  rfl

/-- A node below another one is not less deep than it. -/
theorem le_of_mem_depths {depth d : Nat} {n : Node} (h : d ∈ n.depths depth) : depth ≤ d := by
  induction n using induction_children generalizing depth with
  | step n ih =>
    rw [depths_eq] at h
    rcases List.mem_cons.1 h with rfl | h
    · exact Nat.le_refl _
    · obtain ⟨c, hc, hd⟩ := List.mem_flatMap.1 h
      exact Nat.le_of_succ_le (ih c hc hd)

/-- Everything else is below the node itself. -/
theorem count_depths (depth : Nat) (n : Node) : (n.depths depth).count depth = 1 := by
  have hbelow : depth ∉ n.children.flatMap (depths (depth + 1)) := by
    intro hmem
    obtain ⟨c, -, hd⟩ := List.mem_flatMap.1 hmem
    exact absurd (le_of_mem_depths hd) (Nat.not_succ_le_self depth)
  rw [depths_eq, List.count_cons_self, List.count_eq_zero.2 hbelow]

/-- At the depth of the siblings themselves there are as many nodes as there are siblings. -/
theorem count_flatMap_depths (depth : Nat) (ns : List Node) :
    (ns.flatMap (depths depth)).count depth = ns.length := by
  induction ns with
  | nil => rfl
  | cons n ns ih =>
    rw [List.flatMap_cons, List.count_append, count_depths, ih, List.length_cons, Nat.add_comm]

/-- Of what comes behind a node, the nodes below it are the deeper ones up to the first that is
not. -/
theorem takeWhile_depths {depth : Nat} {ns : List Node} {rest : List Nat}
    (hrest : ∀ d ∈ rest.head?, d ≤ depth) :
    (ns.flatMap (depths (depth + 1)) ++ rest).takeWhile (depth < ·) =
      ns.flatMap (depths (depth + 1)) := by
  have hdeeper : ∀ d ∈ ns.flatMap (depths (depth + 1)), decide (depth < d) = true := by
    intro d hd
    obtain ⟨c, -, hd⟩ := List.mem_flatMap.1 hd
    exact decide_eq_true (le_of_mem_depths hd)
  rw [List.takeWhile_append_of_pos hdeeper]
  cases rest with
  | nil => simp
  | cons d rest =>
    have hd : ¬ depth < d := Nat.not_lt.2 (hrest d rfl)
    rw [List.takeWhile_cons_of_neg (by simpa using hd), List.append_nil]

/-- **The depths tell how many children each node has,** whatever comes next, if it is not
deeper than the node that the walk began with. -/
theorem countChildren_append (n : Node) {depth : Nat} {rest : List Nat}
    (hrest : ∀ d ∈ rest.head?, d ≤ depth) :
    countChildren (n.depths depth ++ rest) =
      (n :: n.descendants).map (·.children.length) ++ countChildren rest := by
  induction n using induction_children generalizing depth rest with
  | step n ih =>
    -- behind a child come its siblings, which are as deep, or the rest, which is less deep
    have below : ∀ ns : List Node, (∀ c ∈ ns, c ∈ n.children) →
        countChildren (ns.flatMap (depths (depth + 1)) ++ rest) =
          (ns.flatMap fun c => c :: c.descendants).map (·.children.length) ++
            countChildren rest := by
      intro ns hns
      induction ns with
      | nil => rfl
      | cons c ns ihn =>
        obtain ⟨hc, hns⟩ := List.forall_mem_cons.1 hns
        have hnext : ∀ d ∈ (ns.flatMap (depths (depth + 1)) ++ rest).head?, d ≤ depth + 1 := by
          cases ns with
          | nil => exact fun d hd => Nat.le_succ_of_le (hrest d hd)
          | cons c' ns =>
            rw [List.flatMap_cons, depths_eq]
            rintro d ⟨⟩
            exact Nat.le_refl _
        rw [List.flatMap_cons, List.append_assoc, ih c hc hnext, ihn hns, List.flatMap_cons,
          List.map_append, List.append_assoc]
    rw [depths_eq, List.cons_append, countChildren, takeWhile_depths hrest, count_flatMap_depths,
      below _ fun _ => id, ← descendants_eq]
    rfl

/-- The depths of a tree's nodes tell how many children each node has. -/
theorem countChildren_depths (root : Node) :
    countChildren (root.depths 0) = (root :: root.descendants).map (·.children.length) := by
  have h : countChildren (root.depths 0 ++ []) = _ := root.countChildren_append nofun
  rwa [List.append_nil, countChildren, List.append_nil] at h

example : childCounts "a\n  b\n    c\n  d\n" = [2, 1, 0, 0] := by decide +kernel

/-- The depths are those of the outline. -/
theorem map_fst_outline (root : Node) : root.outline.map (·.1) = root.depths 0 := rfl

variable {f : Node → Node}

/-- A change that keeps the number of children keeps every depth. -/
theorem depths_transform (hf : ∀ n, (f n).children.length = n.children.length) (depth : Nat)
    (n : Node) : (transform f n).depths depth = n.depths depth := by
  induction n using induction_children generalizing depth with
  | step n ih =>
    rw [depths_eq, depths_eq depth n, children_transform hf, List.flatMap_map]
    exact congrArg _ (List.flatMap_congr fun c hc => ih c hc (depth + 1))

/-- **Nodes that are exchanged stay as deep as they were.** -/
theorem depths_transformBelow (hf : ∀ n, (f n).children.length = n.children.length) (depth : Nat)
    (root : Node) : (transformBelow f root).depths depth = root.depths depth := by
  rw [depths_eq, depths_eq depth root, children_transformBelow, List.flatMap_map]
  exact congrArg _ (List.flatMap_congr fun c _ => depths_transform hf (depth + 1) c)

end Node

end Graft
