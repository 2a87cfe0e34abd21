/-
# Rebuilding a tree

`Node.rebuildChildren` makes a node again over new children.  The tree is
rebuilt from the leaves upwards: when a node is replaced, all below it have been.
-/

import Graft.Tree.Node

namespace Graft

namespace Node

variable {m : Type → Type} [Monad m]

mutual

/-- The same node over new children.  Each child is first rebuilt from below
in the same way and then replaced by `f`. -/
def rebuildChildren (f : Node → m Node) : Node → m Node
  | .classDecl span origin symbol members =>
    return .classDecl span origin symbol (← rebuildList f members)
  | .functionDecl span origin symbol body =>
    return .functionDecl span origin symbol (← rebuildOption f body)
  | .constructorDecl span origin symbol body =>
    return .constructorDecl span origin symbol (← rebuildChildren f body >>= f)
  | .variableDecl span origin symbol init =>
    return .variableDecl span origin symbol (← rebuildOption f init)
  | .call span origin ty callee typeArgs superClass dispatch extension args =>
    return .call span origin ty callee typeArgs superClass
      (← rebuildOption f dispatch) (← rebuildOption f extension) (← rebuildSlots f args)
  | .callableRef span origin ty target typeArgs dispatch extension =>
    return .callableRef span origin ty target typeArgs
      (← rebuildOption f dispatch) (← rebuildOption f extension)
  | .returnFrom span ty target value =>
    return .returnFrom span ty target (← rebuildChildren f value >>= f)
  | .getValue span origin symbol => return .getValue span origin symbol
  | .setVariable span origin symbol value =>
    return .setVariable span origin symbol (← rebuildChildren f value >>= f)
  | .block span ty statements => return .block span ty (← rebuildList f statements)
  | .const span ty value => return .const span ty value
  | .when span ty branches => return .when span ty (← rebuildBranches f branches)
  | .whileLoop span condition body =>
    return .whileLoop span (← rebuildChildren f condition >>= f) (← rebuildChildren f body >>= f)
  | .typeOp span ty operator operandTy arg =>
    return .typeOp span ty operator operandTy (← rebuildChildren f arg >>= f)

/-- Rebuild a node that may be missing. -/
def rebuildOption (f : Node → m Node) : Option Node → m (Option Node)
  | none => return none
  | some n => return some (← rebuildChildren f n >>= f)

/-- Rebuild nodes in order. -/
def rebuildList (f : Node → m Node) : List Node → m (List Node)
  | [] => return []
  | n :: ns => return (← rebuildChildren f n >>= f) :: (← rebuildList f ns)

/-- Rebuild the nodes in the slots that are not empty, in order. -/
def rebuildSlots (f : Node → m Node) : List (Option Node) → m (List (Option Node))
  | [] => return []
  | none :: slots => return none :: (← rebuildSlots f slots)
  | some n :: slots => return some (← rebuildChildren f n >>= f) :: (← rebuildSlots f slots)

/-- Rebuild the condition and then the result of each branch. -/
def rebuildBranches (f : Node → m Node) : List (Node × Node) → m (List (Node × Node))
  | [] => return []
  | (condition, result) :: branches =>
    return ((← rebuildChildren f condition >>= f), (← rebuildChildren f result >>= f)) ::
      (← rebuildBranches f branches)

end

end Node

end Graft
