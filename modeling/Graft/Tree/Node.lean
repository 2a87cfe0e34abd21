/-
# The tree

A resolved, typed tree.  A declaration node owns the symbol it declares; every
other mention of a symbol is a reference.  What a node holds besides its
children never changes with them, and the order of the children is the order
they are evaluated in.
-/

import Graft.Span
import Graft.Type.Arguments

namespace Graft

/-- Where a node came from. -/
inductive Origin where
  /-- Written in source. -/
  | source
  /-- A temporary of the compiler. -/
  | temporary
  /-- Part of the body of a lambda. -/
  | lambda
  /-- Made by inlining a call. -/
  | inlined
deriving DecidableEq, Repr

/-- The value of a constant. -/
inductive Literal where
  | int (value : Int)
  | bool (value : Bool)
  | char (value : Char)
  /-- A string, interned. -/
  | str (value : Name)
  | unit
  | null
deriving DecidableEq, Repr

/-- An operation on a value that names a type. -/
inductive TypeOperator where
  | cast
  | safeCast
  | instanceOf
  | notInstanceOf
  | implicitCoercion
deriving DecidableEq, Repr

/-- How an operator is written. -/
def TypeOperator.text : TypeOperator → String
  | .cast => "as"
  | .safeCast => "as?"
  | .instanceOf => "is"
  | .notInstanceOf => "!is"
  | .implicitCoercion => "coerce"

/-- A node with everything below it. -/
inductive Node where
  | classDecl (span : Span) (origin : Origin) (symbol : ClassId)
      /- Constructors are among the members. -/
      (members : List Node)
  | functionDecl (span : Span) (origin : Origin) (symbol : FunctionId)
      /- Abstract and external functions have none. -/
      (body : Option Node)
  | constructorDecl (span : Span) (origin : Origin) (symbol : ConstructorId) (body : Node)
  | variableDecl (span : Span) (origin : Origin) (symbol : VariableId) (init : Option Node)
  | call (span : Span) (origin : Origin) (ty : TypeId) (callee : Callable)
      (typeArgs : Option TypeArguments)
      /- The class `C` of a call `super<C>.f()`. -/
      (superClass : Option ClassId)
      (dispatch : Option Node) (extension : Option Node)
      /- One slot per parameter; an empty one stands for the default value. -/
      (args : List (Option Node))
  | callableRef (span : Span) (origin : Origin) (ty : TypeId) (target : Callable)
      (typeArgs : Option TypeArguments) (dispatch : Option Node) (extension : Option Node)
  | returnFrom (span : Span) (ty : TypeId) (target : Callable) (value : Node)
  | getValue (span : Span) (origin : Origin) (symbol : Readable)
  | setVariable (span : Span) (origin : Origin) (symbol : VariableId) (value : Node)
  | block (span : Span) (ty : TypeId) (statements : List Node)
  | const (span : Span) (ty : TypeId) (value : Literal)
  /- The branches are pairs of a condition and a result. -/
  | when (span : Span) (ty : TypeId) (branches : List (Node × Node))
  | whileLoop (span : Span) (condition : Node) (body : Node)
  | typeOp (span : Span) (ty : TypeId) (operator : TypeOperator) (operandTy : TypeId)
      (arg : Node)

namespace Node

/-- Where in the source the node comes from. -/
def span : Node → Span
  | .classDecl span .. => span
  | .functionDecl span .. => span
  | .constructorDecl span .. => span
  | .variableDecl span .. => span
  | .call span .. => span
  | .callableRef span .. => span
  | .returnFrom span .. => span
  | .getValue span .. => span
  | .setVariable span .. => span
  | .block span .. => span
  | .const span .. => span
  | .when span .. => span
  | .whileLoop span .. => span
  | .typeOp span .. => span

/-- The symbol that a node declares, if it is a declaration. -/
def declared? : Node → Option Symbol
  | .classDecl _ _ symbol _ => some symbol.symbol
  | .functionDecl _ _ symbol _ => some symbol.symbol
  | .constructorDecl _ _ symbol _ => some symbol.symbol
  | .variableDecl _ _ symbol _ => some symbol.symbol
  | _ => none

/-- The symbols that a node refers to without declaring them. -/
def referenced : Node → List Symbol
  | .call _ _ _ callee _ superClass _ _ _ =>
    callee.symbol :: (superClass.map SymbolId.symbol).toList
  | .callableRef _ _ _ target _ _ _ => [target.symbol]
  | .returnFrom _ _ target _ => [target.symbol]
  | .getValue _ _ symbol => [symbol.symbol]
  | .setVariable _ _ symbol _ => [symbol.symbol]
  | _ => []

/-- Every symbol that a node itself declares or refers to. -/
def mentions (n : Node) : List Symbol := n.declared?.toList ++ n.referenced

/-- The direct children in evaluation order. -/
def children : Node → List Node
  | .classDecl _ _ _ members => members
  | .functionDecl _ _ _ body => body.toList
  | .constructorDecl _ _ _ body => [body]
  | .variableDecl _ _ _ init => init.toList
  | .call _ _ _ _ _ _ dispatch extension args =>
    dispatch.toList ++ extension.toList ++ args.filterMap id
  | .callableRef _ _ _ _ _ dispatch extension => dispatch.toList ++ extension.toList
  | .returnFrom _ _ _ value => [value]
  | .getValue .. => []
  | .setVariable _ _ _ value => [value]
  | .block _ _ statements => statements
  | .const .. => []
  | .when _ _ branches => branches.flatMap fun (condition, result) => [condition, result]
  | .whileLoop _ condition body => [condition, body]
  | .typeOp _ _ _ _ arg => [arg]

end Node

end Graft
