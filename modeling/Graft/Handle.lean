/-
# Handles

Names, types and symbols are known by handles: numbers that index an arena
which only grows.  Whether two mentions mean the same thing is a comparison of
handles, never of what they stand for.

A symbol handle `SymbolId k` carries in its type the kind `k` of what it
denotes, so a reference to a variable is never taken for a reference to a
class.  `Symbol` keeps the kind as data instead; `Callable`, `Readable` and
`Owner` are the references that may be of more than one kind.

A handle may be made from any number.  One that no arena has given out is
`Unallocated`.
-/

namespace Graft

/-- A handle to an interned string. -/
structure Name where
  raw : Nat
deriving DecidableEq, Repr

namespace Name

/-- The name of the empty string. -/
def empty : Name := ⟨0⟩

/-- The empty string is always interned first. -/
def isEmpty (n : Name) : Bool := n.raw == 0

/-- The handle itself, as text. -/
def handleText (n : Name) : String := "Name(" ++ toString n.raw ++ ")"

end Name

/-- A handle to a type of a pool. -/
structure TypeId where
  raw : Nat
deriving DecidableEq, Repr

/-- What a symbol describes. -/
inductive Kind where
  /-- A class, interface, object or enumeration. -/
  | cls
  /-- A function, the `invoke` operators of function types included. -/
  | fn
  /-- A constructor of a class. -/
  | ctor
  /-- A local variable. -/
  | var
  /-- A value parameter of a function or constructor. -/
  | param
  /-- A type parameter of a class or function. -/
  | typeParam
deriving DecidableEq, Repr

namespace Kind

/-- How symbols of this kind are marked in text. -/
def label : Kind → String
  | .cls => "class"
  | .fn => "fun"
  | .ctor => "constructor"
  | .var => "var"
  | .param => "param"
  | .typeParam => "type-param"

/-- The place of the kind in the order of symbols. -/
def rank : Kind → Nat
  | .cls => 0
  | .fn => 1
  | .ctor => 2
  | .var => 3
  | .param => 4
  | .typeParam => 5

/-- The kinds that a copy duplicates: all but type parameters. -/
class Copied (k : Kind) : Prop where
  ne_typeParam : k ≠ .typeParam

instance : Copied .cls := ⟨by decide⟩
instance : Copied .fn := ⟨by decide⟩
instance : Copied .ctor := ⟨by decide⟩
instance : Copied .var := ⟨by decide⟩
instance : Copied .param := ⟨by decide⟩

end Kind

/-- A handle to a symbol of kind `k`. -/
structure SymbolId (k : Kind) where
  index : Nat
deriving DecidableEq, Repr

/-- A handle to a class. -/
abbrev ClassId := SymbolId .cls
/-- A handle to a function. -/
abbrev FunctionId := SymbolId .fn
/-- A handle to a constructor. -/
abbrev ConstructorId := SymbolId .ctor
/-- A handle to a local variable. -/
abbrev VariableId := SymbolId .var
/-- A handle to a value parameter. -/
abbrev ParamId := SymbolId .param
/-- A handle to a type parameter. -/
abbrev TypeParamId := SymbolId .typeParam

/-- A reference to a symbol of any kind. -/
structure Symbol where
  kind : Kind
  index : Nat
deriving DecidableEq, Repr

namespace Symbol

/-- The kind's label and the index: `class#3`. -/
def text (s : Symbol) : String := s.kind.label ++ "#" ++ toString s.index

/-- Symbols are ordered by kind and, within a kind, by index. -/
def before (a b : Symbol) : Bool :=
  a.kind.rank < b.kind.rank || (a.kind == b.kind && a.index < b.index)

end Symbol

/-- The reference that a handle makes. -/
def SymbolId.symbol {k : Kind} (id : SymbolId k) : Symbol := ⟨k, id.index⟩

/-- Something that can be called: the target of calls, callable references and
returns. -/
inductive Callable where
  | fn (id : FunctionId)
  | ctor (id : ConstructorId)
deriving DecidableEq, Repr

/-- What is called, as a symbol. -/
def Callable.symbol : Callable → Symbol
  | .fn id => id.symbol
  | .ctor id => id.symbol

/-- Something that holds a value: the target of reads. -/
inductive Readable where
  | var (id : VariableId)
  | param (id : ParamId)
deriving DecidableEq, Repr

/-- What is read, as a symbol. -/
def Readable.symbol : Readable → Symbol
  | .var id => id.symbol
  | .param id => id.symbol

/-- The declaration that contains another declaration. -/
inductive Owner where
  /-- Top level of the module. -/
  | module
  | fn (id : FunctionId)
  | cls (id : ClassId)
  | ctor (id : ConstructorId)
deriving DecidableEq, Repr

/-- A handle that its arena never gave out. -/
inductive Unallocated where
  | symbol (s : Symbol)
  | type (t : TypeId)
deriving DecidableEq, Repr

end Graft
