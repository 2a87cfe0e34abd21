/-
# Trees as text

One line per node, each before its children and indented by two spaces for
every level below the root.  Symbols are written by name and types in source
syntax, so the dump of a copy shows its generated names.
-/

import Graft.Program
import Graft.Text.Quoted
import Graft.Tree.Walk
import Graft.Type.Display

namespace Graft

namespace Program

variable (program : Program)

/-- The text of a type in source syntax. -/
def typeText (t : TypeId) : Except Unallocated String :=
  program.pool.display program.supply.names t

/-- The name of a callable.  Constructors are named after their class. -/
def callableText : Callable → Except Unallocated String
  | .fn id => return program.lookup (← program.symbols.get id).name
  | .ctor id => do
    let c ← program.symbols.get id
    return program.lookup (← program.symbols.get c.cls).name ++ ".<init>"

/-- The name of something that holds a value. -/
def valueText : Readable → Except Unallocated String
  | .var id => return program.lookup (← program.symbols.get id).name
  | .param id => return program.lookup (← program.symbols.get id).name

/-- A parameter with its type. -/
def paramText (id : ParamId) : Except Unallocated String := do
  let p ← program.symbols.get id
  return program.lookup p.name ++ ": " ++ (← program.typeText p.ty)

/-- The parameters of a callable. -/
def paramsText (callable : Callable) : Except Unallocated String := do
  let params ← program.symbols.paramList callable
  return ", ".intercalate (← params.mapM program.paramText)

/-- A type argument with the parameter it is for. -/
def typeArgText (arg : TypeParamId × TypeId) : Except Unallocated String := do
  let p ← program.symbols.get arg.1
  return program.lookup p.name ++ "=" ++ (← program.typeText arg.2)

/-- The type arguments in angle brackets, if there are any. -/
def typeArgsText : Option TypeArguments → Except Unallocated String
  | none => return ""
  | some ⟨[]⟩ => return ""
  | some ⟨args⟩ => return "<" ++ ", ".intercalate (← args.mapM program.typeArgText) ++ ">"

/-- The value of a constant as it would stand in source. -/
def constText : Literal → String
  | .int value => toString value
  | .bool value => if value then "true" else "false"
  | .char value => Text.quoteChar value
  | .str value => Text.quoteString (program.lookup value)
  | .unit => "()"
  | .null => "null"

/-- The line of a node, without its indentation. -/
def nodeText : Node → Except Unallocated String
  | .classDecl _ _ symbol _ => do
    let c ← program.symbols.get symbol
    return "class " ++ program.lookup c.name
  | .functionDecl _ _ symbol _ => do
    let f ← program.symbols.get symbol
    return "fun " ++ program.lookup f.name ++ "(" ++ (← program.paramsText (.fn symbol)) ++
      "): " ++ (← program.typeText f.returnType)
  | .constructorDecl _ _ symbol _ => do
    return "constructor " ++ (← program.callableText (.ctor symbol)) ++ "(" ++
      (← program.paramsText (.ctor symbol)) ++ ")"
  | .variableDecl _ _ symbol _ => do
    let v ← program.symbols.get symbol
    return (if v.isMutable then "var " else "val ") ++ program.lookup v.name ++ ": " ++
      (← program.typeText v.ty)
  | .call _ _ ty callee typeArgs superClass _ _ _ => do
    let line := "call " ++ (← program.callableText callee) ++ (← program.typeArgsText typeArgs) ++
      ": " ++ (← program.typeText ty)
    match superClass with
    | none => return line
    | some cls => return line ++ " super=" ++ program.lookup (← program.symbols.get cls).name
  | .callableRef _ _ ty target typeArgs _ _ =>
    return "ref " ++ (← program.callableText target) ++ (← program.typeArgsText typeArgs) ++
      ": " ++ (← program.typeText ty)
  | .returnFrom _ _ target _ => return "return@" ++ (← program.callableText target)
  | .getValue _ _ symbol => return "get " ++ (← program.valueText symbol)
  | .setVariable _ _ symbol _ => return "set " ++ (← program.valueText (.var symbol))
  | .block _ ty _ => return "block: " ++ (← program.typeText ty)
  | .const _ ty value =>
    return "const " ++ program.constText value ++ ": " ++ (← program.typeText ty)
  | .when _ ty _ => return "when: " ++ (← program.typeText ty)
  | .whileLoop .. => return "while"
  | .typeOp _ ty operator operandTy _ =>
    return operator.text ++ " " ++ (← program.typeText operandTy) ++ ": " ++
      (← program.typeText ty)

/-- The line of a node at some depth, with its indentation and its end. -/
def lineText (depth : Nat) (n : Node) : Except Unallocated String :=
  return String.ofList (List.replicate (2 * depth) ' ') ++ (← program.nodeText n) ++ "\n"

/-- The text of a tree: a line for each of its nodes. -/
def dump (root : Node) : Except Unallocated String :=
  return String.join (← root.outline.mapM fun (depth, n) => program.lineText depth n)

end Program

end Graft
