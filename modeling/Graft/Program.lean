/-
# What a compilation owns

Names, types and symbols refer to each other by handle, so the arenas that give
the handles their meaning travel together.
-/

import Graft.Name.Supply
import Graft.Symbol.Table
import Graft.Type.Pool

namespace Graft

/-- The symbols, types and names of a compilation. -/
structure Program where
  symbols : SymbolTable := {}
  pool : TypePool := {}
  supply : NameSupply := {}
deriving DecidableEq

namespace Program

/-- The text of a name. -/
def lookup (program : Program) (n : Name) : String := program.supply.names.lookup n

end Program

end Graft
