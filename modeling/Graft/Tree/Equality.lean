/-
# Equality of trees

Two trees are equal if they have the same nodes with the same fields in the
same places.  `Node.same` decides it (`same_iff`).
-/

import Graft.Tree.Node

namespace Graft

namespace Node

mutual

/-- Whether two trees are equal. -/
def same : Node → Node → Bool
  | .classDecl span origin symbol members, .classDecl span' origin' symbol' members' =>
    span == span' && origin == origin' && symbol == symbol' && sameList members members'
  | .functionDecl span origin symbol body, .functionDecl span' origin' symbol' body' =>
    span == span' && origin == origin' && symbol == symbol' && sameOption body body'
  | .constructorDecl span origin symbol body, .constructorDecl span' origin' symbol' body' =>
    span == span' && origin == origin' && symbol == symbol' && same body body'
  | .variableDecl span origin symbol init, .variableDecl span' origin' symbol' init' =>
    span == span' && origin == origin' && symbol == symbol' && sameOption init init'
  | .call span origin ty callee typeArgs superClass dispatch extension args,
    .call span' origin' ty' callee' typeArgs' superClass' dispatch' extension' args' =>
    span == span' && origin == origin' && ty == ty' && callee == callee' &&
      typeArgs == typeArgs' && superClass == superClass' && sameOption dispatch dispatch' &&
      sameOption extension extension' && sameSlots args args'
  | .callableRef span origin ty target typeArgs dispatch extension,
    .callableRef span' origin' ty' target' typeArgs' dispatch' extension' =>
    span == span' && origin == origin' && ty == ty' && target == target' &&
      typeArgs == typeArgs' && sameOption dispatch dispatch' && sameOption extension extension'
  | .returnFrom span ty target value, .returnFrom span' ty' target' value' =>
    span == span' && ty == ty' && target == target' && same value value'
  | .getValue span origin symbol, .getValue span' origin' symbol' =>
    span == span' && origin == origin' && symbol == symbol'
  | .setVariable span origin symbol value, .setVariable span' origin' symbol' value' =>
    span == span' && origin == origin' && symbol == symbol' && same value value'
  | .block span ty statements, .block span' ty' statements' =>
    span == span' && ty == ty' && sameList statements statements'
  | .const span ty value, .const span' ty' value' => span == span' && ty == ty' && value == value'
  | .when span ty branches, .when span' ty' branches' =>
    span == span' && ty == ty' && sameBranches branches branches'
  | .whileLoop span condition body, .whileLoop span' condition' body' =>
    span == span' && same condition condition' && same body body'
  | .typeOp span ty operator operandTy arg, .typeOp span' ty' operator' operandTy' arg' =>
    span == span' && ty == ty' && operator == operator' && operandTy == operandTy' && same arg arg'
  | _, _ => false

/-- Whether both nodes are missing, or there and the same. -/
def sameOption : Option Node → Option Node → Bool
  | none, none => true
  | some n, some n' => same n n'
  | _, _ => false

/-- Whether the nodes are the same, one by one. -/
def sameList : List Node → List Node → Bool
  | [], [] => true
  | n :: ns, n' :: ns' => same n n' && sameList ns ns'
  | _, _ => false

/-- Whether the same slots are empty and the nodes in the others are the same. -/
def sameSlots : List (Option Node) → List (Option Node) → Bool
  | [], [] => true
  | none :: slots, none :: slots' => sameSlots slots slots'
  | some n :: slots, some n' :: slots' => same n n' && sameSlots slots slots'
  | _, _ => false

/-- Whether conditions and results are the same, branch by branch. -/
def sameBranches : List (Node × Node) → List (Node × Node) → Bool
  | [], [] => true
  | (condition, result) :: branches, (condition', result') :: branches' =>
    same condition condition' && same result result' && sameBranches branches branches'
  | _, _ => false

end

mutual

/-- Nodes are the same just when they are equal. -/
theorem same_iff : ∀ a b : Node, same a b = true ↔ a = b
  | .classDecl span origin symbol members, b => by
    cases b <;> simp [same, sameList_iff members, and_assoc]
  | .functionDecl span origin symbol body, b => by
    cases b <;> simp [same, sameOption_iff body, and_assoc]
  | .constructorDecl span origin symbol body, b => by
    cases b <;> simp [same, same_iff body, and_assoc]
  | .variableDecl span origin symbol init, b => by
    cases b <;> simp [same, sameOption_iff init, and_assoc]
  | .call span origin ty callee typeArgs superClass dispatch extension args, b => by
    cases b <;>
      simp [same, sameOption_iff dispatch, sameOption_iff extension, sameSlots_iff args, and_assoc]
  | .callableRef span origin ty target typeArgs dispatch extension, b => by
    cases b <;> simp [same, sameOption_iff dispatch, sameOption_iff extension, and_assoc]
  | .returnFrom span ty target value, b => by
    cases b <;> simp [same, same_iff value, and_assoc]
  | .getValue span origin symbol, b => by cases b <;> simp [same, and_assoc]
  | .setVariable span origin symbol value, b => by
    cases b <;> simp [same, same_iff value, and_assoc]
  | .block span ty statements, b => by
    cases b <;> simp [same, sameList_iff statements, and_assoc]
  | .const span ty value, b => by cases b <;> simp [same, and_assoc]
  | .when span ty branches, b => by
    cases b <;> simp [same, sameBranches_iff branches, and_assoc]
  | .whileLoop span condition body, b => by
    cases b <;> simp [same, same_iff condition, same_iff body, and_assoc]
  | .typeOp span ty operator operandTy arg, b => by
    cases b <;> simp [same, same_iff arg, and_assoc]

/-- Nodes that may be missing are the same just when they are equal. -/
theorem sameOption_iff : ∀ a b : Option Node, sameOption a b = true ↔ a = b
  | none, b => by cases b <;> simp [sameOption]
  | some n, b => by cases b <;> simp [sameOption, same_iff n]

/-- Lists of nodes are the same just when they are equal. -/
theorem sameList_iff : ∀ a b : List Node, sameList a b = true ↔ a = b
  | [], b => by cases b <;> simp [sameList]
  | n :: ns, b => by cases b <;> simp [sameList, same_iff n, sameList_iff ns]

/-- Slots are the same just when they are equal. -/
theorem sameSlots_iff : ∀ a b : List (Option Node), sameSlots a b = true ↔ a = b
  | [], b => by cases b <;> simp [sameSlots]
  | none :: slots, b => by
    rcases b with _ | ⟨_ | n', slots'⟩ <;> simp [sameSlots, sameSlots_iff slots]
  | some n :: slots, b => by
    rcases b with _ | ⟨_ | n', slots'⟩ <;> simp [sameSlots, same_iff n, sameSlots_iff slots]

/-- Branches are the same just when they are equal. -/
theorem sameBranches_iff : ∀ a b : List (Node × Node), sameBranches a b = true ↔ a = b
  | [], b => by cases b <;> simp [sameBranches]
  | (condition, result) :: branches, b => by
    rcases b with _ | ⟨⟨condition', result'⟩, branches'⟩ <;>
      simp [sameBranches, same_iff condition, same_iff result, sameBranches_iff branches, and_assoc]

end

instance : DecidableEq Node := fun a b => decidable_of_iff _ (same_iff a b)

end Node

end Graft
