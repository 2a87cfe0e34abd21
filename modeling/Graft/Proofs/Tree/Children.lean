/-
# A node and its children

`Node.withChildren` puts new children in the places of a node's own, in order; an
empty place stays empty (`Node.children_withChildren`).  Rebuilding a node is
rebuilding its children, one after the other, and putting them into the node
(`Node.rebuildChildren_eq`).  `Node.transform` is what this comes to where nothing
is done but to exchange nodes: a node is exchanged by `f` and then holds its
transformed children.
-/

import Graft.Tree.Rebuild
import Graft.Tree.Walk

namespace Graft

namespace Node

/-- Fill the places that are taken, in order. -/
def fillSlots : List (Option Node) → List Node → List (Option Node)
  | none :: slots, cs => none :: fillSlots slots cs
  | some _ :: slots, c :: cs => some c :: fillSlots slots cs
  | slots, _ => slots

/-- Fill the conditions and results, in order. -/
def fillBranches : List (Node × Node) → List Node → List (Node × Node)
  | _ :: branches, condition :: result :: cs => (condition, result) :: fillBranches branches cs
  | branches, _ => branches

/-- The node with the given children in the places of its own, in order. -/
def withChildren (n : Node) (cs : List Node) : Node :=
  match n with
  | .classDecl span origin symbol _ => .classDecl span origin symbol cs
  | .functionDecl span origin symbol body => .functionDecl span origin symbol (body.map cs.headD)
  | .constructorDecl span origin symbol body =>
    .constructorDecl span origin symbol (cs.headD body)
  | .variableDecl span origin symbol init => .variableDecl span origin symbol (init.map cs.headD)
  | .call span origin ty callee typeArgs superClass dispatch extension args =>
    let cs₁ := cs.drop dispatch.toList.length
    let cs₂ := cs₁.drop extension.toList.length
    .call span origin ty callee typeArgs superClass (dispatch.map cs.headD)
      (extension.map cs₁.headD) (fillSlots args cs₂)
  | .callableRef span origin ty target typeArgs dispatch extension =>
    let cs₁ := cs.drop dispatch.toList.length
    .callableRef span origin ty target typeArgs (dispatch.map cs.headD) (extension.map cs₁.headD)
  | .returnFrom span ty target value => .returnFrom span ty target (cs.headD value)
  | .getValue span origin symbol => .getValue span origin symbol
  | .setVariable span origin symbol value => .setVariable span origin symbol (cs.headD value)
  | .block span ty _ => .block span ty cs
  | .const span ty value => .const span ty value
  | .when span ty branches => .when span ty (fillBranches branches cs)
  | .whileLoop span condition body =>
    .whileLoop span (cs.headD condition) ((cs.drop 1).headD body)
  | .typeOp span ty operator operandTy arg => .typeOp span ty operator operandTy (cs.headD arg)

/-- Slots filled with as many nodes as they take hold just those nodes, in order. -/
theorem filterMap_fillSlots {slots : List (Option Node)} {cs : List Node}
    (h : cs.length = (slots.filterMap id).length) : (fillSlots slots cs).filterMap id = cs := by
  induction slots generalizing cs with
  | nil =>
    obtain rfl := List.eq_nil_of_length_eq_zero h
    rfl
  | cons slot slots ih =>
    cases slot with
    | none => exact ih h
    | some n =>
      cases cs with
      | nil => cases h
      | cons c cs =>
        have hcs : (fillSlots slots cs).filterMap id = cs := ih (by simpa using h)
        simpa [fillSlots] using hcs

/-- Branches filled with as many nodes as they take hold just those nodes, in order. -/
theorem flatMap_fillBranches {branches : List (Node × Node)} {cs : List Node}
    (h : cs.length = (branches.flatMap fun b => [b.1, b.2]).length) :
    ((fillBranches branches cs).flatMap fun b => [b.1, b.2]) = cs := by
  induction branches generalizing cs with
  | nil =>
    obtain rfl := List.eq_nil_of_length_eq_zero h
    rfl
  | cons branch branches ih =>
    match cs with
    | [] => cases h
    | [c] => simp at h
    | condition :: result :: cs =>
      have hcs : ((fillBranches branches cs).flatMap fun b => [b.1, b.2]) = cs :=
        ih (by simpa using h)
      simpa [fillBranches] using hcs

/-- A place that may be empty takes the first of the nodes, or none of them. -/
theorem toList_map_headD {place : Option Node} {cs : List Node}
    (h : place.toList.length ≤ cs.length) :
    (place.map cs.headD).toList = cs.take place.toList.length := by
  cases place with
  | none => rfl
  | some n =>
    cases cs with
    | nil => simp at h
    | cons c cs => rfl

/-- As many children as a node has are its children afterwards. -/
theorem children_withChildren {n : Node} {cs : List Node} (h : cs.length = n.children.length) :
    (n.withChildren cs).children = cs := by
  cases n with
  | classDecl | block => rfl
  | functionDecl span origin symbol body | variableDecl span origin symbol body =>
    cases body with
    | none =>
      obtain rfl := List.eq_nil_of_length_eq_zero h
      rfl
    | some body =>
      obtain ⟨c, rfl⟩ := List.length_eq_one_iff.1 h
      rfl
  | constructorDecl | returnFrom | setVariable | typeOp =>
    obtain ⟨c, rfl⟩ := List.length_eq_one_iff.1 h
    rfl
  | getValue | const =>
    obtain rfl := List.eq_nil_of_length_eq_zero h
    rfl
  | «when» span ty branches => exact flatMap_fillBranches h
  | whileLoop =>
    match cs, h with
    | [condition, body], _ => rfl
  | call span origin ty callee typeArgs superClass dispatch extension args =>
    simp only [children, List.length_append] at h
    simp only [withChildren, children]
    have hargs : (cs.drop dispatch.toList.length).length - extension.toList.length =
        (args.filterMap id).length := by
      rw [List.length_drop]
      omega
    rw [toList_map_headD (by omega), toList_map_headD (by rw [List.length_drop]; omega),
      filterMap_fillSlots (by rw [List.length_drop, hargs]), List.append_assoc,
      List.take_append_drop, List.take_append_drop]
  | callableRef span origin ty target typeArgs dispatch extension =>
    simp only [children, List.length_append] at h
    simp only [withChildren, children]
    have hrest : (cs.drop dispatch.toList.length).length ≤ extension.toList.length := by
      rw [List.length_drop]
      omega
    rw [toList_map_headD (by omega), toList_map_headD (by rw [List.length_drop]; omega),
      List.take_of_length_le hrest, List.take_append_drop]

/-- A child and what is below it are below the node. -/
theorem descendants_of_child {n c m : Node} (hc : c ∈ n.children) (hm : m ∈ c :: c.descendants) :
    m ∈ n.descendants := by
  rw [descendants_eq]
  exact List.mem_flatMap.2 ⟨c, hc, hm⟩

section Rebuild

variable {m : Type → Type} [Monad m] [LawfulMonad m] (f : Node → m Node)

/-- Rebuild a node from below and then replace it by `f`. -/
def rebuild (n : Node) : m Node := rebuildChildren f n >>= f

/-- To rebuild a list is to rebuild its nodes one after another. -/
theorem rebuildList_eq (ns : List Node) : rebuildList f ns = ns.mapM (rebuild f) := by
  induction ns with
  | nil => simp [rebuildList]
  | cons n ns ih => simp [rebuildList, ih, rebuild]

/-- To rebuild a node that may be missing is to rebuild it if it is there. -/
theorem rebuildOption_eq (n : Option Node) :
    rebuildOption f n = (fun cs => n.map cs.headD) <$> n.toList.mapM (rebuild f) := by
  cases n <;> simp [rebuildOption, rebuild]

/-- To rebuild slots is to rebuild the nodes in them and fill the same slots with the results. -/
theorem rebuildSlots_eq (slots : List (Option Node)) :
    rebuildSlots f slots = fillSlots slots <$> (slots.filterMap id).mapM (rebuild f) := by
  induction slots with
  | nil => simp [rebuildSlots, fillSlots]
  | cons slot slots ih => cases slot <;> simp [rebuildSlots, fillSlots, ih, rebuild]

/-- To rebuild branches is to rebuild conditions and results in turn and pair them up again. -/
theorem rebuildBranches_eq (branches : List (Node × Node)) :
    rebuildBranches f branches =
      fillBranches branches <$> (branches.flatMap fun b => [b.1, b.2]).mapM (rebuild f) := by
  induction branches with
  | nil => simp [rebuildBranches, fillBranches]
  | cons branch branches ih => simp [rebuildBranches, fillBranches, ih, rebuild]

/-- **Rebuilding goes through the children.**  They are rebuilt in order and put
into their places. -/
theorem rebuildChildren_eq (n : Node) :
    rebuildChildren f n = n.withChildren <$> n.children.mapM (rebuild f) := by
  cases n with
  | call span origin ty callee typeArgs superClass dispatch extension args =>
    rw [rebuildChildren, rebuildOption_eq, rebuildOption_eq, rebuildSlots_eq]
    cases dispatch <;> cases extension <;> simp [children] <;> rfl
  | callableRef span origin ty target typeArgs dispatch extension =>
    rw [rebuildChildren, rebuildOption_eq, rebuildOption_eq]
    cases dispatch <;> cases extension <;> simp [children] <;> rfl
  | classDecl | block =>
    simp [rebuildChildren, children, rebuildList_eq]
    rfl
  | functionDecl | variableDecl =>
    simp [rebuildChildren, children, rebuildOption_eq]
    rfl
  | «when» =>
    simp [rebuildChildren, children, rebuildBranches_eq]
    rfl
  | getValue | const => simp [rebuildChildren, children, withChildren]
  | constructorDecl | returnFrom | setVariable | whileLoop | typeOp =>
    simp [rebuildChildren, children, rebuild, withChildren]

end Rebuild

section Transform

variable {f : Node → Node}

/-- Exchange every node of a tree by `f` and give it its transformed children. -/
def transform (f : Node → Node) : Node → Node := fold fun n below => (f n).withChildren below

/-- Exchange every node strictly below the root; the root keeps its own fields. -/
def transformBelow (f : Node → Node) (root : Node) : Node :=
  root.withChildren (root.children.map (transform f))

/-- A transformed tree is the changed root over the transformed children. -/
theorem transform_eq (f : Node → Node) (n : Node) :
    transform f n = (f n).withChildren (n.children.map (transform f)) := fold_eq _ n

/-- What a node mentions does not depend on its children. -/
theorem mentions_withChildren (n : Node) (cs : List Node) :
    (n.withChildren cs).mentions = n.mentions := by
  cases n <;> rfl

/-- Below the root, each child is transformed whole. -/
theorem children_transformBelow (f : Node → Node) (root : Node) :
    (transformBelow f root).children = root.children.map (transform f) :=
  children_withChildren (by rw [List.length_map])

/-- A node that keeps its number of children is met again with its children
transformed. -/
theorem children_transform (hf : ∀ n, (f n).children.length = n.children.length) (n : Node) :
    (transform f n).children = n.children.map (transform f) := by
  rw [transform_eq]
  exact children_withChildren (by rw [List.length_map, hf])

/-- A change that keeps the number of children is made at each node below the root, in order. -/
theorem descendants_transform (hf : ∀ n, (f n).children.length = n.children.length) (n : Node) :
    (transform f n).descendants = n.descendants.map (transform f) := by
  induction n using induction_children with
  | step n ih =>
    rw [descendants_eq, descendants_eq n, children_transform hf, List.flatMap_map, List.map_flatMap]
    rw [List.flatMap_def, List.flatMap_def]
    refine congrArg List.flatten (List.map_congr_left fun c hc => ?_)
    rw [ih c hc, List.map_cons]

/-- **The nodes below the root, exchanged in place.** -/
theorem descendants_transformBelow (hf : ∀ n, (f n).children.length = n.children.length)
    (root : Node) : (transformBelow f root).descendants = root.descendants.map (transform f) := by
  rw [descendants_eq, descendants_eq root, children_transformBelow, List.flatMap_map,
    List.map_flatMap]
  simp only [descendants_transform hf, List.map_cons]

end Transform

end Node

end Graft
