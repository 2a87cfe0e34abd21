/-
# The type pool

Types are interned like strings: asking twice for the same shape gives the same handle, so equal
handles mean equal types.  The pool starts with the primitive types and only grows.
-/

import Graft.Dict
import Graft.Type.Facts

namespace Graft

/-- Types are told apart by their numbers. -/
theorem TypeId.mk_injective : Function.Injective TypeId.mk := fun _ _ h => congrArg TypeId.raw h

/-- A type of the pool and what is known of it. -/
structure TypeEntry where
  shape : TypeShape
  facts : TypeFacts
deriving DecidableEq, Repr

/-- The types of a compilation. -/
structure TypePool where
  /-- The shapes of the types, each at the position of its handle. -/
  shapes : Array TypeShape
  /-- What is known of the types, at the same positions. -/
  facts : Array TypeFacts
  /-- The type of each shape. -/
  index : Dict TypeShape TypeId
  /-- The number of the next type parameter. -/
  nextParam : Nat
  /-- Something is known of every type, and of nothing else. -/
  aligned : facts.size = shapes.size
  /-- A shape is found as its type, and no other shape is found. -/
  indexes : index.Indexes TypeId.mk shapes

namespace TypePool

/-- Pools of the same types are equal. -/
theorem ext {a b : TypePool} (hshapes : a.shapes = b.shapes) (hfacts : a.facts = b.facts)
    (hnext : a.nextParam = b.nextParam) : a = b := by
  obtain ⟨shapes, facts, index, nextParam, aligned, hindex⟩ := a
  obtain ⟨shapes', facts', index', nextParam', aligned', hindex'⟩ := b
  obtain rfl : shapes = shapes' := hshapes
  obtain rfl : facts = facts' := hfacts
  obtain rfl : nextParam = nextParam' := hnext
  obtain rfl : index = index' := hindex.eq hindex' fun t => ⟨t.raw, rfl⟩
  rfl

/-- The index need not be compared. -/
instance : DecidableEq TypePool := fun a b =>
  decidable_of_iff (a.shapes = b.shapes ∧ a.facts = b.facts ∧ a.nextParam = b.nextParam)
    ⟨fun h => ext h.1 h.2.1 h.2.2, fun h => h ▸ ⟨rfl, rfl, rfl⟩⟩

/-- The number of types, the primitive ones included. -/
def size (pool : TypePool) : Nat := pool.shapes.size

/-- What the pool holds for a type. -/
def entry (pool : TypePool) (t : TypeId) : Except Unallocated TypeEntry :=
  match pool.shapes[t.raw]?, pool.facts[t.raw]? with
  | some shape, some facts => .ok ⟨shape, facts⟩
  | _, _ => .error (.type t)

/-- The handle of a shape that the pool holds. -/
def find? (pool : TypePool) (shape : TypeShape) : Option TypeId := pool.index.get? shape

/-- Add a type of a shape that the pool does not hold. -/
def push (pool : TypePool) (shape : TypeShape) (facts : TypeFacts)
    (hnew : pool.find? shape = none) : TypeId × TypePool :=
  (⟨pool.size⟩,
    { pool with
      shapes := pool.shapes.push shape
      facts := pool.facts.push facts
      index := pool.index.insert shape ⟨pool.size⟩
      aligned := by rw [Array.size_push, Array.size_push, pool.aligned]
      indexes := pool.indexes.push TypeId.mk_injective hnew })

/-- The handle of a type of the given shape, which is added if the pool does not hold it.  The
parts of a type that is added must be in the pool. -/
def intern (pool : TypePool) (shape : TypeShape) : Except Unallocated (TypeId × TypePool) :=
  match hfind : pool.find? shape with
  | some t => .ok (t, pool)
  | none => do
    let parts ← shape.children.mapM pool.entry
    return pool.push shape (shape.facts (parts.map (·.facts))) hfind

/-- A type parameter with the next number. -/
def typeParam (pool : TypePool) (name : Name) : TypeId × TypePool :=
  let shape := TypeShape.param name pool.nextParam
  let pool := { pool with nextParam := pool.nextParam + 1 }
  match hfind : pool.find? shape with
  | some t => (t, pool)
  | none => pool.push shape (shape.facts []) hfind

/-- The pool without types. -/
def blank : TypePool where
  shapes := #[]
  facts := #[]
  index := ∅
  nextParam := 0
  aligned := rfl
  indexes := Dict.indexes_empty TypeId.mk

/-- The pool after some shapes were interned, as far as their parts were there. -/
def internAll (pool : TypePool) (shapes : List TypeShape) : TypePool :=
  shapes.foldl (fun pool shape => match pool.intern shape with
    | .ok (_, pool') => pool'
    | .error _ => pool) pool

/-- The pool with the primitive types. -/
def start : TypePool := blank.internAll (Primitive.all.map .primitive)

instance : EmptyCollection TypePool := ⟨start⟩

/-- Every primitive type has the handle that is reserved for it. -/
theorem find?_primitive_start (p : Primitive) :
    start.find? (.primitive p) = some (.ofPrimitive p) := by
  cases p <;> decide

end TypePool

end Graft
