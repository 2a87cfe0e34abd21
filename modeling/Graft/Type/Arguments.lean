/-
# Type arguments

A call or callable reference of something generic says which type stands for
which type parameter.  The pairs keep the order they were written in, and a
parameter may occur more than once; its first type counts.
-/

import Graft.Handle

namespace Graft

/-- The types given for type parameters, in order. -/
structure TypeArguments where
  entries : List (TypeParamId × TypeId) := []
deriving DecidableEq, Repr

namespace TypeArguments

/-- The type given for a parameter. -/
def get? (args : TypeArguments) (p : TypeParamId) : Option TypeId := args.entries.lookup p

/-- Replace every type, in order, and keep the parameters. -/
def mapM {m : Type → Type} [Monad m] (f : TypeId → m TypeId) (args : TypeArguments) :
    m TypeArguments :=
  return ⟨← args.entries.mapM fun (p, t) => return (p, ← f t)⟩

/-- The number of arguments. -/
def size (args : TypeArguments) : Nat := args.entries.length

/-- Whether there are no arguments. -/
def isEmpty (args : TypeArguments) : Bool := args.entries.isEmpty

end TypeArguments

end Graft
