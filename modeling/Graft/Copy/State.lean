/-
# One copy in progress

A copy adds records, types and names to the program and remembers which symbol
is the copy of which.  What it has added stays when it stops half way, so its
actions hand on the state whether they succeed or not.
-/

import Graft.Copy.Map
import Graft.Program
import Graft.Tree.Node
import Graft.Type.Substitution

namespace Graft

/-- The program, the memory of the substitutor and the copies made so far. -/
structure CopyState (σ : Type) where
  program : Program
  memory : σ
  map : CopyMap := {}

/-- An action of a copy. -/
abbrev CopyM (σ : Type) := EStateM CopyFault (CopyState σ)

/-- What a copied class declares as its supertypes. -/
inductive SupertypeRule where
  /-- The supertypes of the class it copies, each substituted. -/
  | substitute
  /-- The top type alone. -/
  | top
deriving DecidableEq, Repr

/-- What stays the same throughout one copy. -/
structure CopyJob (σ : Type) where
  /-- The function that the copied declarations will live in. -/
  target : FunctionId
  scheme : NameScheme
  substitutor : Option (Substitutor σ)
  supertypes : SupertypeRule

namespace CopyM

variable {σ α : Type} {k : Kind}

/-- Stop because the tree cannot be copied. -/
def reject (e : Rejection) : CopyM σ α := throw (.rejected e)

/-- The record of a symbol. -/
def record (id : SymbolId k) : CopyM σ (Record k) := fun s =>
  match s.program.symbols.get id with
  | .ok r => .ok r s
  | .error u => .error (.unallocated u) s

/-- Add a record. -/
def mint (r : Record k) : CopyM σ (SymbolId k) := fun s =>
  let (id, symbols) := s.program.symbols.add r
  .ok id { s with program := { s.program with symbols } }

/-- Complete a record that this copy has added. -/
def complete (id : SymbolId k) (f : Record k → Record k) : CopyM σ Unit := fun s =>
  .ok () { s with program := { s.program with symbols := s.program.symbols.modify id f } }

/-- Give a copied callable its parameter list. -/
def setParamList (callable : Callable) (params : List ParamId) : CopyM σ Unit := fun s =>
  let symbols := s.program.symbols.setParamList params callable
  .ok () { s with program := { s.program with symbols } }

/-- Record the copy of a symbol, unless the symbol has one already. -/
def register [k.Copied] (id copy : SymbolId k) : CopyM σ Unit := fun s =>
  match s.map.insert id copy with
  | .ok map => .ok () { s with map }
  | .error e => .error (.rejected e) s

/-- The copies made so far. -/
def copies : CopyM σ CopyMap := fun s => .ok s.map s

end CopyM

namespace CopyJob

variable {σ : Type}

/-- A generated name derived from `base`. -/
def freshName (job : CopyJob σ) (base : Name) : CopyM σ Name := fun s =>
  match job.scheme.fresh base s.program.supply with
  | .ok name supply => .ok name { s with program := { s.program with supply } }
  | .error e supply =>
    .error (.rejected (.nameCapacity e)) { s with program := { s.program with supply } }

/-- Substitute a type.  It stays as it is where there is no substitutor or the
substitution has no result. -/
def substitute (job : CopyJob σ) (t : TypeId) : CopyM σ TypeId := fun s =>
  match Substitutor.applyOrKeep job.substitutor t (s.program.pool, s.memory) with
  | .ok t (pool, memory) => .ok t { s with program := { s.program with pool }, memory }
  | .error u (pool, memory) =>
    .error (.unallocated u) { s with program := { s.program with pool }, memory }

/-- Substitute type arguments, in order. -/
def substituteArgs (job : CopyJob σ) (args : Option TypeArguments) :
    CopyM σ (Option TypeArguments) :=
  args.mapM fun args => args.mapM job.substitute

end CopyJob

end Graft
