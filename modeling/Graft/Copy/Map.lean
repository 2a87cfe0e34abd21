/-
# Which symbol is the copy of which

A copy map sends symbols to their copies.  It has a hash map for every kind of symbol that is
copied, so the copy of a symbol is of the same kind, and symbols of different kinds do not get in
each other's way, even under the same index (`slot_withSlot_of_ne`).  A symbol has one copy, and
the first one recorded stays.  A symbol that the map does not have was not copied: a reference to
it points outside the copied tree and is kept as it is.
-/

import Graft.Copy.Rejection
import Graft.Dict

namespace Graft

/-- Handles of one kind are told apart by their indices. -/
theorem SymbolId.index_injective {k : Kind} :
    Function.Injective (SymbolId.index : SymbolId k → Nat) :=
  fun _ _ h => congrArg SymbolId.mk h

/-- The copies of the symbols of each kind. -/
structure CopyMap where
  classes : Dict ClassId ClassId := ∅
  functions : Dict FunctionId FunctionId := ∅
  constructors : Dict ConstructorId ConstructorId := ∅
  vars : Dict VariableId VariableId := ∅
  params : Dict ParamId ParamId := ∅
deriving DecidableEq

namespace CopyMap

variable {k : Kind}

/-- The copies of the symbols of one kind.  Type parameters have none. -/
def slot (map : CopyMap) : (k : Kind) → Dict (SymbolId k) (SymbolId k)
  | .cls => map.classes
  | .fn => map.functions
  | .ctor => map.constructors
  | .var => map.vars
  | .param => map.params
  | .typeParam => ∅

/-- Exchange the copies of the symbols of one kind. -/
def withSlot (map : CopyMap) : (k : Kind) → Dict (SymbolId k) (SymbolId k) → CopyMap
  | .cls, classes => { map with classes }
  | .fn, functions => { map with functions }
  | .ctor, constructors => { map with constructors }
  | .var, vars => { map with vars }
  | .param, params => { map with params }
  | .typeParam, _ => map

/-- What a slot is exchanged for is there afterwards. -/
theorem slot_withSlot_self [hk : k.Copied] (map : CopyMap) (d : Dict (SymbolId k) (SymbolId k)) :
    (map.withSlot k d).slot k = d := by
  cases k with
  | typeParam => exact absurd rfl hk.ne_typeParam
  | cls | fn | ctor | var | param => rfl

/-- The slots of the other kinds stay as they are. -/
theorem slot_withSlot_of_ne {l : Kind} (hne : l ≠ k) (map : CopyMap)
    (d : Dict (SymbolId k) (SymbolId k)) : (map.withSlot k d).slot l = map.slot l := by
  cases k <;> cases l <;> first | rfl | exact absurd rfl hne

/-- The copy of a symbol, if it was copied. -/
def get? (map : CopyMap) (id : SymbolId k) : Option (SymbolId k) := (map.slot k).get? id

/-- The copy of a symbol, or the symbol itself if it was not copied. -/
def redirect (map : CopyMap) (id : SymbolId k) : SymbolId k := (map.get? id).getD id

/-- Whether a symbol was copied. -/
def contains (map : CopyMap) (id : SymbolId k) : Bool := (map.slot k).contains id

/-- Record the copy of a symbol.  A symbol that has a copy is not given another. -/
def insert [k.Copied] (map : CopyMap) (id copy : SymbolId k) : Except Rejection CopyMap :=
  if map.contains id then
    .error (.declaredTwice id.symbol)
  else
    .ok (map.withSlot k ((map.slot k).insert id copy))

/-- The copy of something that can be called. -/
def callable? (map : CopyMap) : Callable → Option Callable
  | .fn id => (map.get? id).map .fn
  | .ctor id => (map.get? id).map .ctor

/-- The copy of something that holds a value. -/
def readable? (map : CopyMap) : Readable → Option Readable
  | .var id => (map.get? id).map .var
  | .param id => (map.get? id).map .param

/-- Whether a symbol of any kind was copied.  Type parameters never are. -/
def isCopied (map : CopyMap) : Symbol → Bool
  | ⟨.cls, i⟩ => map.contains (⟨i⟩ : ClassId)
  | ⟨.fn, i⟩ => map.contains (⟨i⟩ : FunctionId)
  | ⟨.ctor, i⟩ => map.contains (⟨i⟩ : ConstructorId)
  | ⟨.var, i⟩ => map.contains (⟨i⟩ : VariableId)
  | ⟨.param, i⟩ => map.contains (⟨i⟩ : ParamId)
  | ⟨.typeParam, _⟩ => false

/-- The copied symbols of one kind with their copies, in the order of their indices. -/
def pairsOf (map : CopyMap) (k : Kind) : List (Symbol × Symbol) :=
  ((map.slot k).toSorted SymbolId.index SymbolId.index_injective).map
    fun (id, copy) => (id.symbol, copy.symbol)

/-- Every copied symbol with its copy, in the order of the symbols. -/
def pairs (map : CopyMap) : List (Symbol × Symbol) :=
  map.pairsOf .cls ++ map.pairsOf .fn ++ map.pairsOf .ctor ++ map.pairsOf .var ++
    map.pairsOf .param

/-- The number of symbols that were copied, of all kinds. -/
def size (map : CopyMap) : Nat :=
  map.classes.size + map.functions.size + map.constructors.size + map.vars.size + map.params.size

/-- Whether no symbol was copied. -/
def isEmpty (map : CopyMap) : Bool := map.size == 0

end CopyMap

end Graft
