/-
# Source locations

A node carries the range of source text it came from.  A copied node keeps the
range of the node it copies, so a report about copied code points at the text
that was copied.
-/

namespace Graft

/-- The range of bytes from `start` up to but not including `stop`. -/
structure Span where
  start : Nat
  stop : Nat
deriving DecidableEq, Repr

namespace Span

/-- The location of nodes that have no source. -/
def dummy : Span := ⟨0, 0⟩

/-- Whether there is nothing between the two ends. -/
def isEmpty (s : Span) : Bool := s.start ≥ s.stop

/-- The two ends with two dots between them. -/
def text (s : Span) : String := toString s.start ++ ".." ++ toString s.stop

end Span

end Graft
