/-
# The pools that interning makes

A pool starts with the primitive types, and types are added to it by interning shapes
and numbering type parameters (`TypePool.Reachable`).  So every type comes after its parts, and
what is known of a type is what its shape and its parts tell (`TypePool.Sound`).
-/

import Graft.Proofs.Type.Interning
import Mathlib.Data.List.Nodup

namespace Graft

namespace TypePool

variable {pool pool' later : TypePool} {shape : TypeShape} {t u : TypeId}

/-- What holds of every pool that is only added to by interning. -/
structure Sound (pool : TypePool) : Prop where
  /-- A type comes after its parts. -/
  ordered : pool.Ordered
  /-- What is known of a type is what its shape and its parts tell. -/
  facts : ∀ t e, pool.entry t = .ok e → ∃ parts, e.shape.children.mapM pool.entry = .ok parts ∧
    e.facts = e.shape.facts (parts.map TypeEntry.facts)

/-- Entries read together are read the same in a pool that extends this one. -/
theorem Extends.mapM_entry (h : later.Extends pool) {ts : List TypeId} {parts : List TypeEntry}
    (hp : ts.mapM pool.entry = .ok parts) : ts.mapM later.entry = .ok parts :=
  mapM_entry_eq_ok.2 ((mapM_entry_eq_ok.1 hp).imp fun _ _ he => h.entry he)

/-- A new shape may be added with the facts that its parts give. -/
theorem Sound.push (h : pool.Sound) (hnew : pool.find? shape = none) {parts : List TypeEntry}
    (hparts : shape.children.mapM pool.entry = .ok parts) :
    (pool.push shape (shape.facts (parts.map TypeEntry.facts)) hnew).2.Sound where
  ordered := h.ordered.push (exists_mapM_entry.1 ⟨parts, hparts⟩)
  facts u e he := by
    rw [entry_push] at he
    split at he
    · subst he
      exact ⟨parts, push_extends.mapM_entry hparts, rfl⟩
    · obtain ⟨parts', hparts', hfacts⟩ := h.facts u e he
      exact ⟨parts', push_extends.mapM_entry hparts', hfacts⟩

/-- Interning keeps a pool sound. -/
theorem Sound.intern (h : pool.Sound) (hi : pool.intern shape = .ok (t, pool')) :
    pool'.Sound := by
  rcases intern_eq_ok hi with ⟨-, rfl⟩ | ⟨hnew, parts, hparts, he⟩
  · exact h
  · obtain rfl := congrArg Prod.snd he
    exact h.push hnew hparts

/-- Nothing is wrong with the pool that has no types. -/
theorem sound_blank : blank.Sound where
  ordered _ hi := nomatch hi
  facts _ _ he := nomatch (entry_eq_ok.1 he).1

/-- What interning one shape keeps, interning some keeps. -/
theorem internAll_induction {P : TypePool → Prop}
    (step : ∀ {pool pool' : TypePool} {shape : TypeShape} {t : TypeId}, P pool →
      pool.intern shape = .ok (t, pool') → P pool')
    (h : P pool) (shapes : List TypeShape) : P (pool.internAll shapes) := by
  induction shapes generalizing pool with
  | nil => exact h
  | cons shape shapes ih =>
    rw [TypePool.internAll, List.foldl_cons]
    cases hi : pool.intern shape with
    | ok r => exact ih (step h hi)
    | error u => exact ih h

/-- A pool starts with the primitive types, in their order. -/
theorem shapes_default : ({} : TypePool).shapes = (Primitive.all.map .primitive).toArray := by
  decide +kernel

/-- The pool at the start is sound. -/
theorem sound_default : ({} : TypePool).Sound :=
  internAll_induction Sound.intern sound_blank _

/-- A new parameter keeps a pool sound. -/
theorem Sound.typeParam (h : pool.Sound) (name : Name) : (pool.typeParam name).2.Sound := by
  have hnext : ({ pool with nextParam := pool.nextParam + 1 } : TypePool).Sound :=
    ⟨h.ordered, h.facts⟩
  rcases pool.typeParam_eq name with ⟨t, -, he⟩ | ⟨hnew, he⟩
  · rw [he]
    exact hnext
  · rw [he]
    have hparts : (TypeShape.param name pool.nextParam).children.mapM
        ({ pool with nextParam := pool.nextParam + 1 } : TypePool).entry = .ok [] := rfl
    exact hnext.push hnew hparts

/-- A pool that was made by interning shapes and numbering type parameters. -/
inductive Reachable : TypePool → Prop
  | start : Reachable {}
  | intern {pool pool' : TypePool} {shape : TypeShape} {t : TypeId} (h : Reachable pool)
      (hi : pool.intern shape = .ok (t, pool')) : Reachable pool'
  | typeParam {pool : TypePool} (h : Reachable pool) (name : Name) :
      Reachable (pool.typeParam name).2

/-- **Every pool that can be made is sound.** -/
theorem Reachable.sound (h : pool.Reachable) : pool.Sound := by
  induction h with
  | start => exact sound_default
  | intern _ hi ih => exact ih.intern hi
  | typeParam _ name ih => exact ih.typeParam name

/-! ### Pools that grow -/

/-- The pool was added to, and what was right about its types still is. -/
structure Grown (earlier later : TypePool) : Prop where
  extends_ : later.Extends earlier
  ordered : earlier.Ordered → later.Ordered
  sound : earlier.Sound → later.Sound

/-- A pool has grown out of itself. -/
theorem Grown.refl (pool : TypePool) : Grown pool pool := ⟨.refl pool, id, id⟩

/-- Growth by steps. -/
theorem Grown.trans {a b c : TypePool} (h : Grown a b) (h' : Grown b c) : Grown a c :=
  ⟨h.extends_.trans h'.extends_, h'.ordered ∘ h.ordered, h'.sound ∘ h.sound⟩

/-- A pool grows by interning. -/
theorem intern_grown (h : pool.intern shape = .ok (t, pool')) : Grown pool pool' :=
  ⟨intern_extends h, fun ho => ho.intern h, fun hs => hs.intern h⟩

/-- Numbering a type parameter keeps what was right. -/
theorem typeParam_grown (pool : TypePool) (name : Name) : Grown pool (pool.typeParam name).2 := by
  refine ⟨?_, fun ho => ho.typeParam name, fun hs => hs.typeParam name⟩
  have hnext : ({ pool with nextParam := pool.nextParam + 1 } : TypePool).Extends pool :=
    fun _ _ he => he
  rcases pool.typeParam_eq name with ⟨t, -, he⟩ | ⟨hnew, he⟩
  · rw [he]
    exact hnext
  · rw [he]
    exact hnext.trans push_extends

end TypePool

end Graft
