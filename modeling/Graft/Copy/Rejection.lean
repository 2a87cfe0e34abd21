/-
# Why a copy fails

Every cause but `nameCapacity` means that the tree was not of the form that can
be copied.
-/

import Graft.Name.Interner

namespace Graft

/-- Why a tree cannot be copied. -/
inductive Rejection where
  /-- A constructor is declared before its class, or without it. -/
  | constructorOutsideClass (constructor : ConstructorId)
  /-- A function or constructor to copy has type parameters of its own. -/
  | generic (symbol : Symbol) (count : Nat)
  /-- A class lists a constructor that is not declared among its members. -/
  | constructorNotDeclared (cls : ClassId) (constructor : ConstructorId)
  /-- The tree declares the same symbol twice. -/
  | declaredTwice (symbol : Symbol)
  /-- A tree that should be a copy mentions a symbol that was copied. -/
  | dangling (symbol : Symbol)
  /-- There is no room for a generated name. -/
  | nameCapacity (error : CapacityError)
deriving DecidableEq, Repr

/-- How a rejection is reported. -/
def Rejection.message : Rejection → String
  | .constructorOutsideClass constructor =>
    constructor.symbol.text ++ " is declared outside the class it constructs"
  | .generic symbol count =>
    symbol.text ++ " declares " ++ toString count ++
      " type parameter(s); generic local declarations cannot be copied"
  | .constructorNotDeclared cls constructor =>
    cls.symbol.text ++ " lists " ++ constructor.symbol.text ++
      ", which is not declared among its members"
  | .declaredTwice symbol =>
    symbol.text ++ " is declared more than once in the copied subtree"
  | .dangling symbol => "copied tree still refers to original " ++ symbol.text
  | .nameCapacity error => "cannot name copied declaration: " ++ error.message

/-- How a copy stops: the tree is rejected, or a handle in it, in a record or in
a substitution was never allocated. -/
inductive CopyFault where
  | rejected (why : Rejection)
  | unallocated (handle : Unallocated)
deriving DecidableEq, Repr

end Graft
