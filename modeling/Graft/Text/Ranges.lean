/-
# Character properties as ranges

A property of characters is given by the ranges of code points that have it,
in ascending order and without overlap.  The properties are those of Unicode
17.0.
-/

namespace Graft
namespace Text

/-- Ranges of code points, both ends included. -/
abbrev Ranges := List (Nat × Nat)

/-- Whether the code point of a character lies in one of the ranges. -/
def Ranges.mem (ranges : Ranges) (c : Char) : Bool :=
  ranges.any fun (first, last) => first ≤ c.toNat && c.toNat ≤ last

end Text
end Graft
