/-
# Pointing a tree at the copies

The second pass of a copy rebuilds the tree from the leaves upwards.  Wherever
a node mentions a symbol that was copied, the new node mentions the copy, and
the types that a node carries are substituted.  A callable reference or a
return that points outside the copied tree keeps its types as well.
-/

import Graft.Copy.State
import Graft.Tree.Rebuild

namespace Graft

namespace CopyJob

variable {σ : Type} (job : CopyJob σ)

/-- Point a node, whose children are done, at the copies. -/
def resolve (n : Node) : CopyM σ Node := do
  let map ← CopyM.copies
  match n with
  | .classDecl span origin symbol members =>
    return .classDecl span origin (map.redirect symbol) members
  | .functionDecl span origin symbol body =>
    return .functionDecl span origin (map.redirect symbol) body
  | .constructorDecl span origin symbol body =>
    return .constructorDecl span origin (map.redirect symbol) body
  | .variableDecl span origin symbol init =>
    return .variableDecl span origin (map.redirect symbol) init
  | .call span origin ty callee typeArgs superClass dispatch extension args =>
    let ty ← job.substitute ty
    let typeArgs ← job.substituteArgs typeArgs
    return .call span origin ty ((map.callable? callee).getD callee) typeArgs
      (superClass.map map.redirect) dispatch extension args
  | .callableRef span origin ty target typeArgs dispatch extension =>
    match map.callable? target with
    | none => return n
    | some target =>
      let ty ← job.substitute ty
      let typeArgs ← job.substituteArgs typeArgs
      return .callableRef span origin ty target typeArgs dispatch extension
  | .returnFrom span ty target value =>
    match map.callable? target with
    | none => return n
    | some target => return .returnFrom span (← job.substitute ty) target value
  | .getValue span origin symbol =>
    return .getValue span origin ((map.readable? symbol).getD symbol)
  | .setVariable span origin symbol value =>
    return .setVariable span origin (map.redirect symbol) value
  | .block span ty statements => return .block span (← job.substitute ty) statements
  | .const span ty value => return .const span (← job.substitute ty) value
  | .when span ty branches => return .when span (← job.substitute ty) branches
  | .whileLoop .. => return n
  | .typeOp span ty operator operandTy arg =>
    let ty ← job.substitute ty
    let operandTy ← job.substitute operandTy
    return .typeOp span ty operator operandTy arg

/-- Point everything strictly below a node at the copies. -/
def redirectReferences (root : Node) : CopyM σ Node := root.rebuildChildren job.resolve

end CopyJob

end Graft
