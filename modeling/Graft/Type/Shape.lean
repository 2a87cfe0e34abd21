/-
# The shape of a type

A type of the pool is described one layer at a time: its outermost constructor
and the handles of its parts.  The parts stand at positions of some variance
(`TypeShape.traverse`):

| position | variance |
| --- | --- |
| list or option element | that of the whole type |
| map value, function result | that of the whole type |
| function parameter | flipped |
| map key, argument of a named type | invariant |
-/

import Graft.Handle

namespace Graft

/-- The variance of a position in a type, or of a projected replacement. -/
inductive Variance where
  /-- The exact type only. -/
  | invariant
  /-- `in`: the position consumes. -/
  | contravariant
  /-- `out`: the position produces. -/
  | covariant
deriving DecidableEq, Repr

namespace Variance

/-- The variance of a position below a consuming one. -/
def flip : Variance → Variance
  | .invariant => .invariant
  | .contravariant => .covariant
  | .covariant => .contravariant

/-- A position takes exact replacements and those projected to its own variance. -/
def admits (position projection : Variance) : Bool :=
  projection == .invariant || projection == position

end Variance

/-- The types that every pool holds from the start. -/
inductive Primitive where
  | int
  | float
  | bool
  | str
  | char
  | unit
  | never
  | any
  | error
deriving DecidableEq, Repr

namespace Primitive

/-- The primitive types in the order of their handles. -/
def all : List Primitive := [.int, .float, .bool, .str, .char, .unit, .never, .any, .error]

/-- The position of a primitive type in every pool. -/
def rank : Primitive → Nat
  | .int => 0
  | .float => 1
  | .bool => 2
  | .str => 3
  | .char => 4
  | .unit => 5
  | .never => 6
  | .any => 7
  | .error => 8

/-- How a primitive type is written in source. -/
def name : Primitive → String
  | .int => "int"
  | .float => "float"
  | .bool => "bool"
  | .str => "str"
  | .char => "char"
  | .unit => "()"
  | .never => "never"
  | .any => "any"
  | .error => "<error>"

end Primitive

namespace TypeId

/-- Primitive types have the same handle in every pool. -/
def ofPrimitive (p : Primitive) : TypeId := ⟨p.rank⟩

/-- The top type: every type is a subtype of it. -/
def any : TypeId := ofPrimitive .any

/-- The primitive type that a handle stands for. -/
def primitive? (t : TypeId) : Option Primitive := Primitive.all[t.raw]?

/-- Whether the handle is that of a primitive type. -/
def isPrimitive (t : TypeId) : Bool := t.primitive?.isSome

/-- The handle itself, as text: primitive types by name, others by number. -/
def handleText (t : TypeId) : String :=
  match t.primitive? with
  | some p => "Idx::" ++ p.name
  | none => "Idx(" ++ toString t.raw ++ ")"

end TypeId

/-- The outermost layer of a type. -/
inductive TypeShape where
  | primitive (p : Primitive)
  /-- A type parameter.  Parameters with the same name and different numbers are
  different types. -/
  | param (name : Name) (id : Nat)
  /-- `[elem]` -/
  | list (elem : TypeId)
  /-- `inner?` -/
  | option (inner : TypeId)
  /-- `{key: value}` -/
  | map (key value : TypeId)
  /-- `(params) -> result` -/
  | function (params : List TypeId) (result : TypeId)
  /-- A class type with its type arguments: `name[args]`. -/
  | named (name : Name) (args : List TypeId)
deriving DecidableEq, Repr

namespace TypeShape

/-- The parts of a type, from left to right. -/
def children : TypeShape → List TypeId
  | .primitive _ => []
  | .param _ _ => []
  | .list elem => [elem]
  | .option inner => [inner]
  | .map key value => [key, value]
  | .function params result => params ++ [result]
  | .named _ args => args

/-- Replace every part of a type that stands at variance `v`, from left to
right, given the variance of the part's own position. -/
def traverse {m : Type → Type} [Monad m] (f : TypeId → Variance → m TypeId) (v : Variance) :
    TypeShape → m TypeShape
  | .primitive p => return .primitive p
  | .param name id => return .param name id
  | .list elem => return .list (← f elem v)
  | .option inner => return .option (← f inner v)
  | .map key value => return .map (← f key .invariant) (← f value v)
  | .function params result =>
    return .function (← params.mapM fun p => f p v.flip) (← f result v)
  | .named name args => return .named name (← args.mapM fun a => f a .invariant)

end TypeShape

end Graft
