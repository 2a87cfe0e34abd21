/-
# Substitution of types

A substitution replaces type parameters.  A replacement may be projected
(`out T`, `in T`), and then it fits only at positions of its own variance; at
any other position the two conflict and the substitution has no result.

`Substitutor` is anything that replaces types in this sense.  It may add types
to the pool and keep a memory of its own, and what it has added and remembered
stays even where it has no result.  `ParamSubst` is the substitutor given by a
finite map from type parameters to replacements.
-/

import Graft.Type.Pool

namespace Graft

/-- Why a substitution gives no type. -/
inductive SubstFailure where
  /-- The result cannot be expressed at the requested variance. -/
  | conflict
  | unallocated (handle : Unallocated)
deriving DecidableEq, Repr

/-- An action on the pool that may have no result. -/
abbrev SubstM := EStateM SubstFailure TypePool

namespace SubstM

/-- What the pool holds for a type. -/
def entry (t : TypeId) : SubstM TypeEntry := fun pool =>
  match pool.entry t with
  | .ok e => .ok e pool
  | .error u => .error (.unallocated u) pool

/-- Intern a type. -/
def intern (shape : TypeShape) : SubstM TypeId := fun pool =>
  match pool.intern shape with
  | .ok (t, pool) => .ok t pool
  | .error u => .error (.unallocated u) pool

end SubstM

/-- A way to replace types at a position of given variance.  Its memory is of
type `σ`. -/
structure Substitutor (σ : Type) where
  substitute : TypeId → Variance → EStateM SubstFailure (TypePool × σ) TypeId

/-- Replace a type at an invariant position.  Without a substitutor, and where
the substitution has no result, the type stays as it is. -/
def Substitutor.applyOrKeep {σ : Type} (f : Option (Substitutor σ)) (t : TypeId) :
    EStateM Unallocated (TypePool × σ) TypeId := fun s =>
  match f with
  | none => .ok t s
  | some f =>
    match f.substitute t .invariant s with
    | .ok t' s => .ok t' s
    | .error .conflict s => .ok t s
    | .error (.unallocated u) s => .error u s

/-- A replacement and the variance it is projected to. -/
structure Projection where
  variance : Variance
  ty : TypeId
deriving DecidableEq, Repr

/-- A finite map from type parameters to their replacements. -/
structure ParamSubst where
  entries : List (TypeId × Projection) := []
deriving DecidableEq, Repr

namespace ParamSubst

/-- The replacement of a parameter. -/
def get? (s : ParamSubst) (param : TypeId) : Option Projection := s.entries.lookup param

/-- Map a parameter to a replacement, in place of the one it may have had. -/
def insert (s : ParamSubst) (param : TypeId) (p : Projection) : ParamSubst :=
  ⟨(param, p) :: s.entries.filter fun e => e.1 != param⟩

/-- The last replacement given for a parameter counts. -/
theorem get?_insert (s : ParamSubst) (param other : TypeId) (p : Projection) :
    (s.insert param p).get? other = if other = param then some p else s.get? other := by
  unfold get? insert
  split
  · rename_i h
    rw [h, List.lookup_cons, beq_self_eq_true]
  · rename_i h
    rw [List.lookup_cons, beq_eq_false_iff_ne.2 h]
    show List.lookup _ _ = _
    induction s.entries with
    | nil => rfl
    | cons e l ih =>
      obtain ⟨a, q⟩ := e
      by_cases ha : a = param
      · rw [List.filter_cons_of_neg (by simp [ha]), ih, List.lookup_cons, ha,
          beq_eq_false_iff_ne.2 h]
      · rw [List.filter_cons_of_pos (by simp [ha]), List.lookup_cons, List.lookup_cons, ih]

/-- Map a parameter to exactly the given type. -/
def insertExact (s : ParamSubst) (param ty : TypeId) : ParamSubst :=
  s.insert param ⟨.invariant, ty⟩

/-- The number of parameters that are mapped. -/
def size (s : ParamSubst) : Nat := s.entries.length

/-- Whether nothing is replaced. -/
def isEmpty (s : ParamSubst) : Bool := s.entries.isEmpty

/-- What a parameter becomes at a position of variance `v`. -/
def replace (s : ParamSubst) (param : TypeId) (v : Variance) : SubstM TypeId :=
  match s.get? param with
  | none => return param
  | some p => if v.admits p.variance then return p.ty else throw .conflict

/-- Replace the mapped parameters in a type whose handle is below `bound`.
A type in which nothing changes keeps its handle. -/
def applyBelow (s : ParamSubst) : Nat → TypeId → Variance → SubstM TypeId
  | 0, t, _ => throw (.unallocated (.type t))
  | bound + 1, t, v => do
    let e ← SubstM.entry t
    if !e.facts.isOpen then return t
    match e.shape with
    | .param _ _ => s.replace t v
    | shape =>
      let shape' ← shape.traverse (s.applyBelow bound) v
      if shape' = shape then return t else SubstM.intern shape'

/-- Replace the mapped parameters in a type at a position of variance `v`.  The
parts of a type have smaller handles than the type itself, so its own handle
bounds the depth. -/
def apply (s : ParamSubst) (t : TypeId) (v : Variance) : SubstM TypeId :=
  if s.isEmpty then return t else s.applyBelow (t.raw + 1) t v

/-- The substitutor that a map of parameters gives; it remembers nothing. -/
def toSubstitutor {σ : Type} (s : ParamSubst) : Substitutor σ where
  substitute t v := fun (pool, memory) =>
    match s.apply t v pool with
    | .ok t' pool => .ok t' (pool, memory)
    | .error e pool => .error e (pool, memory)

end ParamSubst

end Graft
