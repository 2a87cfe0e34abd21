/-
# Interning types

A shape that is interned keeps its handle in every larger pool
(`TypePool.intern_replay`).  A type is added after its parts
(`TypePool.Ordered`): this holds of the pool a compilation starts with, and
interning keeps it, so a type can be taken apart only finitely often.
-/

import Graft.Proofs.Growth
import Mathlib.Data.List.Forall2

namespace Graft

namespace TypePool

variable {pool pool' later : TypePool} {shape : TypeShape} {t : TypeId}

/-- The handle of a type of the pool. -/
def Has (pool : TypePool) (t : TypeId) : Prop := t.raw < pool.size

instance (t : TypeId) : Decidable (pool.Has t) := inferInstanceAs (Decidable (_ < _))

/-- The parts of every type come before the type itself. -/
def Ordered (pool : TypePool) : Prop :=
  ∀ i (h : i < pool.shapes.size), ∀ part ∈ pool.shapes[i].children, part.raw < i

instance : Decidable pool.Ordered :=
  inferInstanceAs (Decidable (∀ i (h : i < pool.shapes.size),
    ∀ part ∈ pool.shapes[i].children, part.raw < i))

/-- A pool has just the types that it has entries for. -/
theorem has_iff : pool.Has t ↔ ∃ e, pool.entry t = .ok e := by
  constructor
  · intro h
    obtain ⟨facts, he⟩ := exists_entry (Array.getElem?_eq_getElem h)
    exact ⟨_, he⟩
  · rintro ⟨e, he⟩
    exact (Array.getElem?_eq_some_iff.1 (entry_eq_ok.1 he).1).1

/-- A pool that extends another has its types. -/
theorem Extends.has (h : later.Extends pool) (ht : pool.Has t) : later.Has t := by
  obtain ⟨e, he⟩ := has_iff.1 ht
  exact has_iff.2 ⟨e, h.entry he⟩

/-- The parts of a type come before it. -/
theorem Ordered.part_lt (h : pool.Ordered) {e : TypeEntry} (he : pool.entry t = .ok e)
    {part : TypeId} (hp : part ∈ e.shape.children) : part.raw < t.raw := by
  obtain ⟨hi, hshape⟩ := Array.getElem?_eq_some_iff.1 (entry_eq_ok.1 he).1
  exact h t.raw hi part (hshape ▸ hp)

/-! ### The handle of a shape -/

/-- A shape is found as the type that has it. -/
theorem find?_eq_some : pool.find? shape = some t ↔ ∃ facts, pool.entry t = .ok ⟨shape, facts⟩ := by
  refine (pool.indexes shape t.raw).trans ⟨exists_entry, ?_⟩
  rintro ⟨facts, he⟩
  exact (entry_eq_ok.1 he).1

/-- The shape of a type is found at that type. -/
theorem find?_of_entry {e : TypeEntry} (he : pool.entry t = .ok e) : pool.find? e.shape = some t :=
  find?_eq_some.2 ⟨_, he⟩

/-- What is found is a type of the pool. -/
theorem has_of_find? (h : pool.find? shape = some t) : pool.Has t := by
  obtain ⟨facts, he⟩ := find?_eq_some.1 h
  exact has_iff.2 ⟨_, he⟩

/-- Types of one shape are one type. -/
theorem eq_of_shape {e e' : TypeEntry} (he : pool.entry t = .ok e) (he' : pool.entry u = .ok e')
    (hs : e.shape = e'.shape) : t = u := by
  have ht := find?_of_entry he
  rw [hs, find?_of_entry he'] at ht
  exact (Option.some.inj ht).symm

/-- What is found is found in every larger pool. -/
theorem Extends.find? (h : later.Extends pool) (hf : pool.find? shape = some t) :
    later.find? shape = some t := by
  obtain ⟨facts, he⟩ := find?_eq_some.1 hf
  exact find?_eq_some.2 ⟨facts, h.entry he⟩

/-! ### Adding a type -/

variable {facts : TypeFacts} {hnew : pool.find? shape = none}

/-- The type that is added is the last one. -/
theorem entry_push {e : TypeEntry} :
    (pool.push shape facts hnew).2.entry t = .ok e ↔
      if t.raw = pool.size then e = ⟨shape, facts⟩ else pool.entry t = .ok e := by
  rw [entry_eq_ok, entry_eq_ok, push]
  dsimp only
  rw [Array.getElem?_push, Array.getElem?_push, pool.aligned, size]
  split
  · obtain ⟨shape', facts'⟩ := e
    simp [eq_comm]
  · rfl

/-- The type just added has the shape and facts it was added with. -/
theorem entry_push_self :
    (pool.push shape facts hnew).2.entry (pool.push shape facts hnew).1 = .ok ⟨shape, facts⟩ := by
  rw [entry_push, if_pos (show (pool.push shape facts hnew).1.raw = pool.size from rfl)]

/-- The shape just added is found at the type just added. -/
theorem find?_push (facts : TypeFacts) (hnew : pool.find? shape = none) :
    (pool.push shape facts hnew).2.find? shape = some (pool.push shape facts hnew).1 :=
  find?_of_entry entry_push_self

/-- Adding a type keeps those there are. -/
theorem push_extends : (pool.push shape facts hnew).2.Extends pool := by
  intro u e he
  rw [entry_push, if_neg]
  · exact he
  · exact Nat.ne_of_lt (has_iff.2 ⟨e, he⟩)

/-- A type whose parts are there may be added to an ordered pool. -/
theorem Ordered.push (h : pool.Ordered) (hparts : ∀ part ∈ shape.children, pool.Has part) :
    (pool.push shape facts hnew).2.Ordered := by
  intro i (hi : i < (pool.shapes.push shape).size) part hp
  rw [Array.size_push] at hi
  have hp : part ∈ (pool.shapes.push shape)[i].children := hp
  rw [Array.getElem_push] at hp
  split at hp
  · rename_i hlt
    exact h i hlt part hp
  · have := hparts part hp
    rw [Has, size] at this
    omega

/-! ### Interning -/

/-- The entries of several types are the entries of each. -/
theorem mapM_entry_eq_ok {ts : List TypeId} {es : List TypeEntry} :
    ts.mapM pool.entry = .ok es ↔ List.Forall₂ (fun t e => pool.entry t = .ok e) ts es := by
  induction ts generalizing es with
  | nil =>
    rw [List.mapM_nil, List.forall₂_nil_left_iff]
    exact ⟨fun h => (Except.ok.inj h).symm, fun h => h ▸ rfl⟩
  | cons t ts ih =>
    rw [List.mapM_cons, List.forall₂_cons_left_iff]
    constructor
    · intro h
      cases ht : pool.entry t with
      | error u => simp [ht, bind, Except.bind] at h
      | ok e =>
        cases hts : ts.mapM pool.entry with
        | error u => simp [ht, hts, bind, Except.bind] at h
        | ok es' =>
          rw [ht, hts] at h
          exact ⟨e, es', rfl, ih.1 hts, (Except.ok.inj h).symm⟩
    · rintro ⟨e, es', he, hes', rfl⟩
      rw [he, ih.2 hes']
      rfl

/-- Each of several types read together has its entry among those read. -/
theorem exists_of_mapM_entry {ts : List TypeId} {es : List TypeEntry}
    (h : ts.mapM pool.entry = .ok es) (ht : t ∈ ts) : ∃ e ∈ es, pool.entry t = .ok e := by
  have hread := mapM_entry_eq_ok.1 h
  clear h
  induction hread with
  | nil => simp at ht
  | cons he _ ih =>
    rcases List.mem_cons.1 ht with rfl | ht
    · exact ⟨_, .head _, he⟩
    · obtain ⟨e, hmem, he⟩ := ih ht
      exact ⟨e, .tail _ hmem, he⟩

/-- The parts of a shape are read exactly if the pool has them. -/
theorem exists_mapM_entry {ts : List TypeId} :
    (∃ es, ts.mapM pool.entry = .ok es) ↔ ∀ t ∈ ts, pool.Has t := by
  simp only [mapM_entry_eq_ok, has_iff]
  induction ts with
  | nil => simp
  | cons t ts ih => simp [List.forall₂_cons_left_iff, ← ih]

/-- A shape that is found is interned as it is. -/
theorem intern_of_find? (h : pool.find? shape = some t) : pool.intern shape = .ok (t, pool) := by
  unfold intern
  split
  · rename_i t' hfind
    rw [Option.some.inj (h.symm.trans hfind)]
  · rename_i hnone
    exact nomatch h.symm.trans hnone

/-- A shape that is new is added with the facts that its parts give. -/
theorem intern_of_new (hnew : pool.find? shape = none) :
    pool.intern shape = (shape.children.mapM pool.entry).map fun parts =>
      pool.push shape (shape.facts (parts.map TypeEntry.facts)) hnew := by
  unfold intern
  split
  · rename_i t hfind
    exact nomatch hnew.symm.trans hfind
  · cases shape.children.mapM pool.entry <;> rfl

/-- What interning does: it finds the shape, or adds it when the pool has its parts. -/
theorem intern_eq_ok (h : pool.intern shape = .ok (t, pool')) :
    (pool.find? shape = some t ∧ pool' = pool) ∨
    ∃ (hnew : pool.find? shape = none) (parts : List TypeEntry),
      shape.children.mapM pool.entry = .ok parts ∧
        pool.push shape (shape.facts (parts.map TypeEntry.facts)) hnew = (t, pool') := by
  by_cases hfind : ∃ t', pool.find? shape = some t'
  · obtain ⟨t', hfind⟩ := hfind
    rw [intern_of_find? hfind] at h
    cases h
    exact .inl ⟨hfind, rfl⟩
  · have hnew : pool.find? shape = none :=
      Option.eq_none_iff_forall_ne_some.2 fun t' ht' => hfind ⟨t', ht'⟩
    rw [intern_of_new hnew] at h
    cases hparts : shape.children.mapM pool.entry with
    | error u =>
      rw [hparts] at h
      cases h
    | ok parts =>
      rw [hparts] at h
      exact .inr ⟨hnew, parts, rfl, Except.ok.inj h⟩

/-- Interning keeps the types there are. -/
theorem intern_extends (h : pool.intern shape = .ok (t, pool')) : pool'.Extends pool := by
  rcases intern_eq_ok h with ⟨-, rfl⟩ | ⟨hnew, parts, -, he⟩
  · exact .refl _
  · obtain rfl := congrArg Prod.snd he
    exact push_extends

/-- A shape that was interned is found where it was put. -/
theorem find?_of_intern (h : pool.intern shape = .ok (t, pool')) : pool'.find? shape = some t := by
  rcases intern_eq_ok h with ⟨hf, rfl⟩ | ⟨hnew, parts, -, he⟩
  · exact hf
  · have hfound := find?_push (shape.facts (parts.map TypeEntry.facts)) hnew
    rwa [he] at hfound

/-- **A shape keeps its handle.**  Interned again in any larger pool, it gives
the same handle and adds nothing. -/
theorem intern_replay (h : pool.intern shape = .ok (t, pool')) (hl : later.Extends pool') :
    later.intern shape = .ok (t, later) := intern_of_find? (hl.find? (find?_of_intern h))

/-- Interning keeps a pool ordered. -/
theorem Ordered.intern (ho : pool.Ordered) (h : pool.intern shape = .ok (t, pool')) :
    pool'.Ordered := by
  rcases intern_eq_ok h with ⟨-, rfl⟩ | ⟨hnew, parts, hparts, he⟩
  · exact ho
  · obtain rfl := congrArg Prod.snd he
    exact ho.push (exists_mapM_entry.1 ⟨parts, hparts⟩)

/-- A shape whose parts the pool has can be interned. -/
theorem exists_intern (h : ∀ part ∈ shape.children, pool.Has part) :
    ∃ t pool', pool.intern shape = .ok (t, pool') := by
  cases hfind : pool.find? shape with
  | some t => exact ⟨t, pool, intern_of_find? hfind⟩
  | none =>
    obtain ⟨parts, hparts⟩ := exists_mapM_entry.2 h
    rw [intern_of_new hfind, hparts]
    exact ⟨_, _, rfl⟩

/-- A parameter of the next number is found or added. -/
theorem typeParam_eq (pool : TypePool) (name : Name) :
    (∃ t, pool.find? (.param name pool.nextParam) = some t ∧
      pool.typeParam name = (t, { pool with nextParam := pool.nextParam + 1 })) ∨
    ∃ hnew : pool.find? (.param name pool.nextParam) = none, pool.typeParam name =
      ({ pool with nextParam := pool.nextParam + 1 } : TypePool).push
        (.param name pool.nextParam) (TypeShape.facts (.param name pool.nextParam) []) hnew := by
  unfold typeParam
  dsimp only
  split
  · rename_i t hfind
    exact .inl ⟨t, hfind, rfl⟩
  · rename_i hnew
    exact .inr ⟨hnew, rfl⟩

/-- Numbering a type parameter keeps the order as well. -/
theorem Ordered.typeParam (ho : pool.Ordered) (name : Name) : (pool.typeParam name).2.Ordered := by
  have hnext : ({ pool with nextParam := pool.nextParam + 1 } : TypePool).Ordered := ho
  rcases pool.typeParam_eq name with ⟨t, -, he⟩ | ⟨hnew, he⟩
  · rw [he]
    exact hnext
  · rw [he]
    exact hnext.push fun part hp => nomatch hp

end TypePool

end Graft
