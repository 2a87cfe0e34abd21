/-
# Types in source syntax

Type parameters and class types are written by name.  A function type is
written with an arrow and no brackets around it.
-/

import Graft.Name.Interner
import Graft.Type.Pool

namespace Graft

namespace TypeShape

/-- The text of a type, given the texts of its parts. -/
def render {m : Type → Type} [Monad m] (names : Interner) (part : TypeId → m String) :
    TypeShape → m String
  | .primitive p => return p.name
  | .param name _ => return names.lookup name
  | .list elem => return "[" ++ (← part elem) ++ "]"
  | .option inner => return (← part inner) ++ "?"
  | .map key value => return "\x7b" ++ (← part key) ++ ": " ++ (← part value) ++ "\x7d"
  | .function params result =>
    return "(" ++ ", ".intercalate (← params.mapM part) ++ ") -> " ++ (← part result)
  | .named name [] => return names.lookup name
  | .named name args =>
    return names.lookup name ++ "[" ++ ", ".intercalate (← args.mapM part) ++ "]"

end TypeShape

namespace TypePool

/-- The text of a type whose handle is below `bound`. -/
def displayBelow (pool : TypePool) (names : Interner) : Nat → TypeId → Except Unallocated String
  | 0, t => .error (.type t)
  | bound + 1, t => do
    let e ← pool.entry t
    e.shape.render names (displayBelow pool names bound)

/-- The text of a type in source syntax.  The parts of a type have smaller
handles than the type itself, so its own handle bounds the depth. -/
def display (pool : TypePool) (names : Interner) (t : TypeId) : Except Unallocated String :=
  pool.displayBelow names (t.raw + 1) t

end TypePool

end Graft
