/-
# The symbol table

One arena of records per kind.  A symbol's identity is its position; records
are only ever added, and a record is completed in place only while its
declaration is still being built.
-/

import Graft.Symbol.Record

namespace Graft

/-- The records of a compilation, each at the position of its handle. -/
structure SymbolTable where
  classes : Array ClassRecord := #[]
  functions : Array FunctionRecord := #[]
  constructors : Array ConstructorRecord := #[]
  vars : Array VariableRecord := #[]
  params : Array ParamRecord := #[]
  typeParams : Array TypeParamRecord := #[]
deriving DecidableEq, Repr

namespace SymbolTable

/-- The records of one kind. -/
def arena (table : SymbolTable) : (k : Kind) → Array (Record k)
  | .cls => table.classes
  | .fn => table.functions
  | .ctor => table.constructors
  | .var => table.vars
  | .param => table.params
  | .typeParam => table.typeParams

/-- Exchange the records of one kind. -/
def withArena (table : SymbolTable) : (k : Kind) → Array (Record k) → SymbolTable
  | .cls, records => { table with classes := records }
  | .fn, records => { table with functions := records }
  | .ctor, records => { table with constructors := records }
  | .var, records => { table with vars := records }
  | .param, records => { table with params := records }
  | .typeParam, records => { table with typeParams := records }

variable {k : Kind}

/-- The record of a symbol. -/
def get? (table : SymbolTable) (id : SymbolId k) : Option (Record k) :=
  (table.arena k)[id.index]?

/-- The record of a symbol that ought to be allocated. -/
def get (table : SymbolTable) (id : SymbolId k) : Except Unallocated (Record k) :=
  match table.get? id with
  | some r => .ok r
  | none => .error (.symbol id.symbol)

/-- Add a record at the end of its arena. -/
def add (table : SymbolTable) (r : Record k) : SymbolId k × SymbolTable :=
  (⟨(table.arena k).size⟩, table.withArena k ((table.arena k).push r))

/-- A record that is added is found under its handle. -/
theorem get?_add_self (table : SymbolTable) (r : Record k) :
    (table.add r).2.get? (table.add r).1 = some r := by
  cases k <;> simp [add, get?, arena, withArena]

/-- Complete a record in place. -/
def modify (table : SymbolTable) (id : SymbolId k) (f : Record k → Record k) : SymbolTable :=
  table.withArena k ((table.arena k).modify id.index f)

/-- The value parameters of a callable. -/
def paramList (table : SymbolTable) : Callable → Except Unallocated (List ParamId)
  | .fn id => return (← table.get id).params
  | .ctor id => return (← table.get id).params

/-- The return type of a callable. -/
def resultType (table : SymbolTable) : Callable → Except Unallocated TypeId
  | .fn id => return (← table.get id).returnType
  | .ctor id => return (← table.get id).returnType

/-- Give a callable its parameter list. -/
def setParamList (table : SymbolTable) (params : List ParamId) : Callable → SymbolTable
  | .fn id => table.modify id fun r => { r with params }
  | .ctor id => table.modify id fun r => { r with params }

/-- Add a parameter at the end of a callable's list.  The table assigns its
owner and index. -/
def appendParam (table : SymbolTable) (owner : Callable) (name : Name) (ty : TypeId)
    (traits : ParamTraits) : Except Unallocated (ParamId × SymbolTable) := do
  let params ← table.paramList owner
  let (id, table) := table.add (k := .param)
    { owner, derivedFrom := none, index := params.length, name, ty, varargElement := none, traits }
  return (id, table.setParamList (params ++ [id]) owner)

/-- Add a constructor and list it with its class.  The constructor is added
even if the class was never allocated. -/
def addToClass (r : ConstructorRecord) :
    EStateM Unallocated SymbolTable ConstructorId := fun table =>
  let (id, table) := table.add (k := .ctor) r
  match table.get? r.cls with
  | none => .error (.symbol r.cls.symbol) table
  | some _ =>
    .ok id <| table.modify r.cls fun c =>
      { c with
        constructors := c.constructors ++ [id]
        primary := if r.isPrimary then some id else c.primary }

/-- The source name of a symbol.  Constructors are named after their class. -/
def sourceName (table : SymbolTable) : Symbol → Except Unallocated Name
  | ⟨.cls, i⟩ => return (← table.get (⟨i⟩ : ClassId)).name
  | ⟨.fn, i⟩ => return (← table.get (⟨i⟩ : FunctionId)).name
  | ⟨.ctor, i⟩ => do
    let c ← table.get (⟨i⟩ : ConstructorId)
    return (← table.get c.cls).name
  | ⟨.var, i⟩ => return (← table.get (⟨i⟩ : VariableId)).name
  | ⟨.param, i⟩ => return (← table.get (⟨i⟩ : ParamId)).name
  | ⟨.typeParam, i⟩ => return (← table.get (⟨i⟩ : TypeParamId)).name

/-- The number of symbols of all kinds. -/
def size (table : SymbolTable) : Nat :=
  table.classes.size + table.functions.size + table.constructors.size +
    table.vars.size + table.params.size + table.typeParams.size

/-- Whether there are no symbols of any kind. -/
def isEmpty (table : SymbolTable) : Bool := table.size == 0

/-- Whether every symbol of `earlier` is in `later`, unchanged and at the same
position. -/
def isExtensionOf (later earlier : SymbolTable) : Bool :=
  earlier.classes.isPrefixOf later.classes &&
  earlier.functions.isPrefixOf later.functions &&
  earlier.constructors.isPrefixOf later.constructors &&
  earlier.vars.isPrefixOf later.vars &&
  earlier.params.isPrefixOf later.params &&
  earlier.typeParams.isPrefixOf later.typeParams

end SymbolTable

/-- The sizes of the arenas at one point in time. -/
structure Extent where
  classes : Nat := 0
  functions : Nat := 0
  constructors : Nat := 0
  vars : Nat := 0
  params : Nat := 0
  typeParams : Nat := 0
deriving DecidableEq, Repr

namespace Extent

/-- How many symbols of a kind there were. -/
def count (w : Extent) : Kind → Nat
  | .cls => w.classes
  | .fn => w.functions
  | .ctor => w.constructors
  | .var => w.vars
  | .param => w.params
  | .typeParam => w.typeParams

/-- Whether a symbol was allocated after the extent was taken. -/
def isBeyond (w : Extent) (s : Symbol) : Bool := s.index ≥ w.count s.kind

end Extent

/-- The present sizes of the arenas. -/
def SymbolTable.extent (table : SymbolTable) : Extent where
  classes := table.classes.size
  functions := table.functions.size
  constructors := table.constructors.size
  vars := table.vars.size
  params := table.params.size
  typeParams := table.typeParams.size

end Graft
