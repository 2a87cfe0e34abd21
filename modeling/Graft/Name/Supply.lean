/-
# Names for copies

A copied declaration is named after the function it is placed into, the
function it comes from and the declaration it copies, followed by a number:
`target_inlined_name_n`.  The number comes from a supply shared by a whole
compilation and is never given out twice.
-/

import Graft.Name.Interner

namespace Graft

/-- The interned names and the next unused number. -/
structure NameSupply where
  names : Interner := {}
  next : Nat := 0
deriving DecidableEq

/-- Take the next number. -/
def NameSupply.take (supply : NameSupply) : Nat × NameSupply :=
  (supply.next, { supply with next := supply.next + 1 })

/-- The two texts that the names of one copy begin with. -/
structure NameScheme where
  /-- The name of the function that the copy is placed into. -/
  target : String
  /-- What the copied code is called. -/
  inlined : String
deriving DecidableEq, Repr

namespace NameScheme

/-- The text of the generated name with number `n`. -/
def text (scheme : NameScheme) (base : String) (n : Nat) : String :=
  scheme.target ++ "_" ++ scheme.inlined ++ "_" ++ base ++ "_" ++ toString n

/-- A name derived from `base`.  A number is used up even if the interner
has no room for the name. -/
def fresh (scheme : NameScheme) (base : Name) : EStateM CapacityError NameSupply Name :=
  fun supply =>
    let (n, supply) := supply.take
    match supply.names.intern (scheme.text (supply.names.lookup base) n) with
    | .ok (name, names) => .ok name { supply with names }
    | .error e => .error e supply

end NameScheme

end Graft
