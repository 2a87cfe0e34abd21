/-
# Folding a tree

`Node.fold` gives a node a value from the values of its children, in order
(`fold_eq`).  Every pass that only reads the tree is a fold; a pass with effects
is one whose values are actions.  `induction_children` is the induction that
goes with it.
-/

import Graft.Tree.Node

namespace Graft

namespace Node

section Fold

variable {β : Type}

mutual

/-- The value of a node, given how a node's value comes from the values of its
children. -/
def fold (f : Node → List β → β) : Node → β
  | .classDecl span origin symbol members =>
    f (.classDecl span origin symbol members) (foldList f members)
  | .functionDecl span origin symbol body =>
    f (.functionDecl span origin symbol body) (foldOption f body)
  | .constructorDecl span origin symbol body =>
    f (.constructorDecl span origin symbol body) [fold f body]
  | .variableDecl span origin symbol init =>
    f (.variableDecl span origin symbol init) (foldOption f init)
  | .call span origin ty callee typeArgs superClass dispatch extension args =>
    f (.call span origin ty callee typeArgs superClass dispatch extension args)
      (foldOption f dispatch ++ foldOption f extension ++ foldSlots f args)
  | .callableRef span origin ty target typeArgs dispatch extension =>
    f (.callableRef span origin ty target typeArgs dispatch extension)
      (foldOption f dispatch ++ foldOption f extension)
  | .returnFrom span ty target value => f (.returnFrom span ty target value) [fold f value]
  | .getValue span origin symbol => f (.getValue span origin symbol) []
  | .setVariable span origin symbol value =>
    f (.setVariable span origin symbol value) [fold f value]
  | .block span ty statements => f (.block span ty statements) (foldList f statements)
  | .const span ty value => f (.const span ty value) []
  | .when span ty branches => f (.when span ty branches) (foldBranches f branches)
  | .whileLoop span condition body =>
    f (.whileLoop span condition body) [fold f condition, fold f body]
  | .typeOp span ty operator operandTy arg =>
    f (.typeOp span ty operator operandTy arg) [fold f arg]

/-- The value of a node that may be missing. -/
def foldOption (f : Node → List β → β) : Option Node → List β
  | none => []
  | some n => [fold f n]

/-- The values of nodes in order. -/
def foldList (f : Node → List β → β) : List Node → List β
  | [] => []
  | n :: ns => fold f n :: foldList f ns

/-- The values of the nodes in the slots that are not empty. -/
def foldSlots (f : Node → List β → β) : List (Option Node) → List β
  | [] => []
  | none :: slots => foldSlots f slots
  | some n :: slots => fold f n :: foldSlots f slots

/-- The values of the condition and then of the result of each branch. -/
def foldBranches (f : Node → List β → β) : List (Node × Node) → List β
  | [] => []
  | (condition, result) :: branches =>
    fold f condition :: fold f result :: foldBranches f branches

end

/-- The fold of a node that may be missing folds it if it is there. -/
theorem foldOption_eq (f : Node → List β → β) (n : Option Node) :
    foldOption f n = n.toList.map (fold f) := by
  cases n <;> simp [foldOption]

/-- The fold of a list folds its nodes. -/
theorem foldList_eq (f : Node → List β → β) (ns : List Node) :
    foldList f ns = ns.map (fold f) := by
  induction ns with
  | nil => simp [foldList]
  | cons n ns ih => simp [foldList, ih]

/-- The fold of slots folds the nodes that are in them. -/
theorem foldSlots_eq (f : Node → List β → β) (slots : List (Option Node)) :
    foldSlots f slots = (slots.filterMap id).map (fold f) := by
  induction slots with
  | nil => simp [foldSlots]
  | cons slot slots ih => cases slot <;> simp [foldSlots, ih]

/-- The fold of branches folds their conditions and results. -/
theorem foldBranches_eq (f : Node → List β → β) (branches : List (Node × Node)) :
    foldBranches f branches =
      (branches.flatMap fun (condition, result) => [condition, result]).map (fold f) := by
  induction branches with
  | nil => simp [foldBranches]
  | cons branch branches ih => simp [foldBranches, ih]

/-- **A fold goes through the children.**  The value of a node comes from the
node and the values of its children, in order. -/
theorem fold_eq (f : Node → List β → β) (n : Node) :
    fold f n = f n (n.children.map (fold f)) := by
  cases n <;>
    simp [fold, children, foldOption_eq, foldList_eq, foldSlots_eq, foldBranches_eq]

end Fold

/-- A node that is there is smaller than the option of it. -/
theorem sizeOf_lt_of_mem_toList {c : Node} {n : Option Node} (h : c ∈ n.toList) :
    sizeOf c < sizeOf n := by
  obtain rfl := Option.mem_toList.1 h
  simp only [Option.some.sizeOf_spec]
  omega

/-- A node in a slot is smaller than the slots. -/
theorem sizeOf_lt_of_mem_slots {c : Node} {slots : List (Option Node)}
    (h : c ∈ slots.filterMap id) : sizeOf c < sizeOf slots := by
  obtain ⟨slot, hs, rfl⟩ := List.mem_filterMap.1 h
  have := List.sizeOf_lt_of_mem hs
  simp only [Option.some.sizeOf_spec] at this
  omega

/-- The condition or the result of a branch is smaller than the branches. -/
theorem sizeOf_lt_of_mem_branches {c : Node} {branches : List (Node × Node)}
    (h : c ∈ branches.flatMap fun (condition, result) => [condition, result]) :
    sizeOf c < sizeOf branches := by
  obtain ⟨⟨condition, result⟩, hb, hc⟩ := List.mem_flatMap.1 h
  have := List.sizeOf_lt_of_mem hb
  simp only [Prod.mk.sizeOf_spec] at this
  rcases List.mem_cons.1 hc with rfl | hc
  · omega
  · obtain rfl := List.mem_singleton.1 hc
    omega

/-- A child is smaller than its parent. -/
theorem sizeOf_lt_of_mem_children {c n : Node} (h : c ∈ n.children) : sizeOf c < sizeOf n := by
  cases n with
  | classDecl span origin symbol members =>
    have : sizeOf c < sizeOf members := List.sizeOf_lt_of_mem h
    simp only [classDecl.sizeOf_spec]; omega
  | functionDecl span origin symbol body =>
    have := sizeOf_lt_of_mem_toList h
    simp only [functionDecl.sizeOf_spec]; omega
  | constructorDecl span origin symbol body =>
    obtain rfl := List.mem_singleton.1 h
    simp only [constructorDecl.sizeOf_spec]; omega
  | variableDecl span origin symbol init =>
    have := sizeOf_lt_of_mem_toList h
    simp only [variableDecl.sizeOf_spec]; omega
  | call span origin ty callee typeArgs superClass dispatch extension args =>
    simp only [call.sizeOf_spec]
    rcases List.mem_append.1 h with h | h
    · rcases List.mem_append.1 h with h | h <;> have := sizeOf_lt_of_mem_toList h <;> omega
    · have := sizeOf_lt_of_mem_slots h
      omega
  | callableRef span origin ty target typeArgs dispatch extension =>
    simp only [callableRef.sizeOf_spec]
    rcases List.mem_append.1 h with h | h <;> have := sizeOf_lt_of_mem_toList h <;> omega
  | returnFrom span ty target value =>
    obtain rfl := List.mem_singleton.1 h
    simp only [returnFrom.sizeOf_spec]; omega
  | getValue span origin symbol => cases h
  | setVariable span origin symbol value =>
    obtain rfl := List.mem_singleton.1 h
    simp only [setVariable.sizeOf_spec]; omega
  | block span ty statements =>
    have : sizeOf c < sizeOf statements := List.sizeOf_lt_of_mem h
    simp only [block.sizeOf_spec]; omega
  | const span ty value => cases h
  | when span ty branches =>
    have := sizeOf_lt_of_mem_branches h
    simp only [when.sizeOf_spec]; omega
  | whileLoop span condition body =>
    simp only [whileLoop.sizeOf_spec]
    rcases List.mem_cons.1 h with rfl | h
    · omega
    · obtain rfl := List.mem_singleton.1 h
      omega
  | typeOp span ty operator operandTy arg =>
    obtain rfl := List.mem_singleton.1 h
    simp only [typeOp.sizeOf_spec]; omega

/-- **Induction on trees.**  What holds of a node whenever it holds of the
node's children holds of every node. -/
theorem induction_children {P : Node → Prop} (step : ∀ n, (∀ c ∈ n.children, P c) → P n)
    (n : Node) : P n :=
  step n fun c h => have := sizeOf_lt_of_mem_children h; induction_children step c
termination_by n

end Node

end Graft
