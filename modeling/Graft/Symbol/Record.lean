/-
# Symbol records

A record describes one declaration.  Records mention other symbols and types by
handle only, so what a record says does not depend on what the arenas hold.
-/

import Graft.Handle

namespace Graft

/-- Who may inherit from a class or replace a member. -/
inductive Modality where
  /-- `final`: nobody. -/
  | final
  /-- `open`: anybody. -/
  | extensible
  /-- `abstract`: somebody must. -/
  | abstract
  /-- `sealed`: the same module only. -/
  | sealed
deriving DecidableEq, Repr

/-- From where a declaration can be mentioned. -/
inductive Visibility where
  /-- `public` -/
  | everywhere
  /-- `internal` -/
  | moduleWide
  /-- `protected` -/
  | inheritors
  /-- `private` -/
  | ownerOnly
  /-- Declared inside a function body. -/
  | bodyLocal
deriving DecidableEq, Repr

/-- What kind of class is declared. -/
inductive ClassKind where
  | plain
  | interface
  | object
  | enumeration
  | annotationClass
deriving DecidableEq, Repr

/-- How a function came to exist. -/
inductive FunctionKind where
  /-- Written in source. -/
  | declared
  /-- Made by the compiler, copies included. -/
  | synthesized
  /-- The `invoke` operator of a function type: calling a value of type
  `(A) -> B` is a call of one of these. -/
  | typeInvoke
deriving DecidableEq, Repr

/-- What is noted about a value parameter. -/
structure ParamTraits where
  /-- The parameter has a default value. -/
  declaresDefault : Bool := false
  /-- A lambda argument that may not return from the function around it. -/
  crossinline : Bool := false
  /-- A lambda argument that must not be inlined. -/
  noinline : Bool := false
deriving DecidableEq, Repr

namespace ParamTraits

/-- The notes as bits of a number. -/
def toBits (f : ParamTraits) : Nat :=
  (if f.declaresDefault then 1 else 0) + (if f.crossinline then 2 else 0) +
  (if f.noinline then 4 else 0)

/-- The notes among the bits of a number; other bits mean nothing. -/
def ofBits (n : Nat) : ParamTraits where
  declaresDefault := n.testBit 0
  crossinline := n.testBit 1
  noinline := n.testBit 2

end ParamTraits

/-- What is known of a class. -/
structure ClassRecord where
  name : Name
  owner : Owner
  kind : ClassKind
  modality : Modality
  visibility : Visibility
  supertypes : List TypeId
  /-- Declared outside the current compilation unit. -/
  isExternal : Bool
  typeParams : List TypeParamId
  constructors : List ConstructorId
  primary : Option ConstructorId
deriving DecidableEq, Repr

/-- What is known of a function. -/
structure FunctionRecord where
  name : Name
  owner : Owner
  kind : FunctionKind
  typeParams : List TypeParamId
  params : List ParamId
  returnType : TypeId
  extensionReceiver : Option TypeId
  dispatchReceiver : Option TypeId
  modality : Modality
  visibility : Visibility
  isTailrec : Bool
  isInline : Bool
deriving DecidableEq, Repr

/-- Whether calling this function is calling a value of function type. -/
def FunctionRecord.isTypeInvoke (f : FunctionRecord) : Bool := f.kind == .typeInvoke

/-- What is known of a constructor. -/
structure ConstructorRecord where
  /-- The class whose objects are constructed. -/
  cls : ClassId
  isPrimary : Bool
  typeParams : List TypeParamId
  params : List ParamId
  returnType : TypeId
  dispatchReceiver : Option TypeId
  modality : Modality
  visibility : Visibility
deriving DecidableEq, Repr

/-- What is known of a local variable. -/
structure VariableRecord where
  name : Name
  owner : Owner
  ty : TypeId
  isMutable : Bool
deriving DecidableEq, Repr

/-- What is known of a value parameter. -/
structure ParamRecord where
  /-- The callable that the parameter belongs to. -/
  owner : Callable
  /-- The parameter this one was derived from, if it was not declared for itself. -/
  derivedFrom : Option ParamId
  /-- The position in the owner's parameter list. -/
  index : Nat
  name : Name
  ty : TypeId
  /-- The type of the elements of a `vararg` parameter. -/
  varargElement : Option TypeId
  traits : ParamTraits
deriving DecidableEq, Repr

/-- The declaration that a parameter ultimately comes from, given its own
handle. -/
def ParamRecord.root (p : ParamRecord) (self : ParamId) : ParamId := p.derivedFrom.getD self

/-- What is known of a type parameter. -/
structure TypeParamRecord where
  name : Name
  owner : Owner
  index : Nat
  /-- The type that stands for the parameter. -/
  ty : TypeId
deriving DecidableEq, Repr

/-- The record of a symbol of the given kind. -/
abbrev Record : Kind → Type
  | .cls => ClassRecord
  | .fn => FunctionRecord
  | .ctor => ConstructorRecord
  | .var => VariableRecord
  | .param => ParamRecord
  | .typeParam => TypeParamRecord

end Graft
