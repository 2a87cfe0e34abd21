/-
# What is known of a type without walking it

Two facts are inherited by every type from its parts: that a type parameter
occurs in it, and that the error type does.  The others tell its outermost
constructor.  They are found once, when a type enters the pool.
-/

import Graft.Type.Shape

namespace Graft

/-- A set of facts about a type. -/
structure TypeFacts where
  /-- A type parameter occurs in the type. -/
  hasParam : Bool := false
  /-- The error type occurs in the type. -/
  hasError : Bool := false
  isPrimitive : Bool := false
  isParam : Bool := false
  /-- A list, an option or a map. -/
  isContainer : Bool := false
  isFunction : Bool := false
  isNamed : Bool := false
deriving DecidableEq, Repr

namespace TypeFacts

/-- All the facts of either set. -/
def union (a b : TypeFacts) : TypeFacts where
  hasParam := a.hasParam || b.hasParam
  hasError := a.hasError || b.hasError
  isPrimitive := a.isPrimitive || b.isPrimitive
  isParam := a.isParam || b.isParam
  isContainer := a.isContainer || b.isContainer
  isFunction := a.isFunction || b.isFunction
  isNamed := a.isNamed || b.isNamed

/-- The facts that a type hands on to every type it is part of. -/
def propagated (f : TypeFacts) : TypeFacts where
  hasParam := f.hasParam
  hasError := f.hasError

/-- Whether a substitution could change the type. -/
def isOpen (f : TypeFacts) : Bool := f.hasParam

/-- The facts as bits of a number. -/
def toBits (f : TypeFacts) : Nat :=
  (if f.hasParam then 1 else 0) + (if f.hasError then 2 else 0) +
  (if f.isPrimitive then 256 else 0) + (if f.isParam then 512 else 0) +
  (if f.isContainer then 1024 else 0) + (if f.isFunction then 2048 else 0) +
  (if f.isNamed then 4096 else 0)

/-- The facts among the bits of a number; other bits mean nothing. -/
def ofBits (n : Nat) : TypeFacts where
  hasParam := n.testBit 0
  hasError := n.testBit 1
  isPrimitive := n.testBit 8
  isParam := n.testBit 9
  isContainer := n.testBit 10
  isFunction := n.testBit 11
  isNamed := n.testBit 12

end TypeFacts

namespace TypeShape

/-- What the outermost constructor alone tells of a type. -/
def ownFacts : TypeShape → TypeFacts
  | .primitive p => { isPrimitive := true, hasError := p == .error }
  | .param _ _ => { isParam := true, hasParam := true }
  | .list _ => { isContainer := true }
  | .option _ => { isContainer := true }
  | .map _ _ => { isContainer := true }
  | .function _ _ => { isFunction := true }
  | .named _ _ => { isNamed := true }

/-- What is known of a type, given what is known of its parts. -/
def facts (s : TypeShape) (parts : List TypeFacts) : TypeFacts :=
  parts.foldl (fun acc part => acc.union part.propagated) s.ownFacts

end TypeShape

end Graft
