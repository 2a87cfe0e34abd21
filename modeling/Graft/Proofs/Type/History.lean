/-
# Pools and their histories

A pool starts with the primitive types and is changed by three sorts of calls: a shape is
interned, a type parameter is numbered, or a substitution runs (`PoolCall`).  A call may fail, and
what it added before is there all the same (`TypePool.call`).  Whatever the calls were, the pool
is canonical (`TypePool.Canonical`): handles and trees correspond to each other, the recursion
over parts ends, and what is known of a type is exact.  Later calls change nothing of this, and
nothing that the pool holds (`TypePool.after_canonical`).
-/

import Graft.Proofs.Tree.Dump
import Graft.Proofs.Type.Exactness
import Graft.Proofs.Type.Replay

namespace Graft

open TypePool (Grown)

namespace TypePool

variable {pool : TypePool} {shape : TypeShape} {t : TypeId} {u : Unallocated}

/-- The only way to miss an entry is to ask for a type the pool does not have. -/
theorem entry_eq_error (h : pool.entry t = .error u) : u = .type t ∧ ¬ pool.Has t := by
  refine ⟨?_, fun ht => ?_⟩
  · unfold entry at h
    split at h
    · cases h
    · exact (Except.error.inj h).symm
  · obtain ⟨e, he⟩ := has_iff.1 ht
    rw [he] at h
    cases h

/-- Interning fails where a part is missing. -/
theorem intern_eq_error (h : pool.intern shape = .error u) :
    ∃ part, u = .type part ∧ ¬ pool.Has part := by
  have hparts : ∀ {ts : List TypeId}, ts.mapM pool.entry = .error u →
      ∃ part, u = .type part ∧ ¬ pool.Has part := by
    intro ts hts
    induction ts with
    | nil => cases hts
    | cons t ts ih =>
      rw [List.mapM_cons] at hts
      cases ht : pool.entry t with
      | error u' =>
        rw [ht] at hts
        obtain rfl : u' = u := Except.error.inj hts
        exact ⟨t, entry_eq_error ht⟩
      | ok e =>
        cases hrest : ts.mapM pool.entry with
        | error u' =>
          rw [ht, hrest] at hts
          obtain rfl : u' = u := Except.error.inj hts
          exact ih hrest
        | ok es =>
          rw [ht, hrest] at hts
          cases hts
  unfold intern at h
  split at h
  · cases h
  · cases hread : shape.children.mapM pool.entry with
    | error u' =>
      rw [hread] at h
      obtain rfl : u' = u := Except.error.inj h
      exact hparts hread
    | ok parts =>
      rw [hread] at h
      cases h

end TypePool

/-! ### How a substitution stops -/

/-- The action stops at a conflict or at a type that the pool does not have, if it stops. -/
def SubstM.StopsAt {α : Type} (m : SubstM α) (pool : TypePool) : Prop :=
  Ends m pool (fun _ pool' => Grown pool pool')
    (fun e pool' => Grown pool pool' ∧
      ∀ u, e = .unallocated u → ∃ t, u = .type t ∧ ¬ pool'.Has t)

namespace ParamSubst

variable {pool : TypePool}

/-- The bound on the depth is never met: every part has a smaller handle. -/
theorem applyBelow_stopsAt (s : ParamSubst) (ho : pool.Ordered) (bound : Nat) {t : TypeId}
    (hb : t.raw < bound) (v : Variance) : (s.applyBelow bound t v).StopsAt pool := by
  induction bound generalizing t v pool with
  | zero => omega
  | succ bound ih =>
    rw [applyBelow]
    cases he : pool.entry t with
    | error u =>
      have hentry : SubstM.entry t pool = .error (.unallocated u) pool := by
        rw [SubstM.entry, he]
      refine Ends.bind (Ends.of_eq_error hentry ⟨.refl pool, ?_⟩)
      rintro _ ⟨⟩
      exact ⟨t, TypePool.entry_eq_error he⟩
    | ok e =>
      have hentry : SubstM.entry t pool = .ok e pool := by rw [SubstM.entry, he]
      refine Ends.bind (Ends.of_eq_ok hentry ?_)
      split
      · exact .refl pool
      split
      · unfold replace
        split
        · exact .refl pool
        · split
          · exact .refl pool
          · refine ⟨.refl pool, ?_⟩
            rintro _ ⟨⟩
      · -- the parts come before the type, in whatever they make of the pool
        rw [TypeShape.traverse_eq, map_eq_pure_bind, bind_assoc]
        refine Ends.bind ((Ends.mapM (I := fun _ _ pool' => Grown pool pool') _ (.refl pool)
          ?_).imp (fun parts pool' hg => ?_) fun _ _ h => h)
        · rintro done part rest hsplit values pool' hg
          have hpart : part.1 ∈ e.shape.children := by
            rw [← TypeShape.map_fst_positions v, hsplit]
            exact List.mem_map_of_mem (List.mem_append_right _ (.head _))
          have hlt := ho.part_lt he hpart
          exact (ih (hg.ordered ho) (by omega) part.2).imp (fun _ _ h => hg.trans h)
            fun _ _ h => ⟨hg.trans h.1, h.2⟩
        · rw [pure_bind]
          split
          · exact hg
          · unfold Ends SubstM.intern
            cases hi : pool'.intern (e.shape.withParts parts) with
            | ok r => exact hg.trans (TypePool.intern_grown hi)
            | error u =>
              refine ⟨hg, ?_⟩
              rintro _ ⟨⟩
              exact TypePool.intern_eq_error hi

/-- **A substitution ends.**  It stops at a conflict or at a type that the pool does not have, and
never since the depth was bounded. -/
theorem apply_stopsAt (s : ParamSubst) (ho : pool.Ordered) (t : TypeId) (v : Variance) :
    (s.apply t v).StopsAt pool := by
  unfold apply
  split
  · exact .refl pool
  · exact s.applyBelow_stopsAt ho _ (Nat.lt_succ_self _) v

end ParamSubst

/-! ### Histories -/

/-- A call that may change a pool. -/
inductive PoolCall where
  | intern (shape : TypeShape)
  | typeParam (name : Name)
  | substitute (s : ParamSubst) (t : TypeId) (v : Variance)
deriving DecidableEq, Repr

namespace TypePool

/-- The pool after a call, however the call ends. -/
def call (pool : TypePool) : PoolCall → TypePool
  | .intern shape =>
    match pool.intern shape with
    | .ok (_, pool') => pool'
    | .error _ => pool
  | .typeParam name => (pool.typeParam name).2
  | .substitute s t v =>
    match s.apply t v pool with
    | .ok _ pool' => pool'
    | .error _ pool' => pool'

/-- The pool after some calls. -/
def after (pool : TypePool) (calls : List PoolCall) : TypePool := calls.foldl call pool

/-- The pool after calls made one after another. -/
theorem after_append (pool : TypePool) (calls later : List PoolCall) :
    pool.after (calls ++ later) = (pool.after calls).after later := List.foldl_append

variable {pool : TypePool}

/-- A call keeps what was right. -/
theorem call_grown (pool : TypePool) (c : PoolCall) : Grown pool (pool.call c) := by
  cases c with
  | intern shape =>
    rw [call]
    cases hi : pool.intern shape with
    | ok r => exact intern_grown hi
    | error u => exact .refl pool
  | typeParam name => exact pool.typeParam_grown name
  | substitute s t v =>
    rw [call]
    have hsteady := s.steady_apply t v pool
    cases happly : s.apply t v pool with
    | ok r pool' => exact (hsteady.ok_of_eq happly).1
    | error e pool' => exact (hsteady.err_of_eq happly).1

/-- So do calls after one another. -/
theorem after_grown (pool : TypePool) (calls : List PoolCall) : Grown pool (pool.after calls) := by
  induction calls generalizing pool with
  | nil => exact .refl pool
  | cons c calls ih => exact (pool.call_grown c).trans (ih _)

/-- A pool is sound whatever calls it was made by. -/
theorem after_sound (calls : List PoolCall) : (after {} calls).Sound :=
  (after_grown {} calls).sound sound_default

/-- Handles stand for finite trees, equal handles for equal trees, and the pool knows its types. -/
structure Canonical (pool : TypePool) : Prop where
  /-- A type comes after its parts. -/
  parts_lt : ∀ t e, pool.entry t = .ok e → ∀ part ∈ e.shape.children, part.raw < t.raw
  /-- The tree of a type is its layer over the trees of its parts. -/
  unfold_eq : ∀ t e, pool.entry t = .ok e → pool.unfold t = e.shape.tree pool.unfold
  /-- A type can be written. -/
  displays : ∀ names t, pool.Has t → ∃ text, pool.display names t = .ok text
  /-- A substitution stops only at a conflict or at a type that is not there. -/
  substitutes : ∀ (s : ParamSubst) t v u pool', s.apply t v pool = .error (.unallocated u) pool' →
    ∃ x, u = .type x ∧ ¬ pool'.Has x
  /-- Two types are one if and only if they stand for one tree. -/
  eq_iff : ∀ t u, pool.Has t → pool.Has u → (t = u ↔ pool.unfold t = pool.unfold u)
  /-- A shape that is there is found, and the pool stays as it is. -/
  interned : ∀ t e, pool.entry t = .ok e → pool.intern e.shape = .ok (t, pool)
  /-- What is known of a type is exact. -/
  facts : ∀ t e, pool.entry t = .ok e → e.facts.ExactFor (pool.unfold t)

/-- A pool that is sound is canonical. -/
theorem Sound.canonical (h : pool.Sound) : pool.Canonical where
  parts_lt _ _ he _ hp := h.ordered.part_lt he hp
  unfold_eq _ _ he := TypePool.unfold_eq h.ordered he
  displays names _ ht := h.ordered.defined_display names ht
  substitutes s t v u _ happly := ((s.apply_stopsAt h.ordered t v).err_of_eq happly).2 u rfl
  eq_iff _ _ ht hu := ⟨congrArg _, h.unfold_injective ht hu⟩
  interned _ _ he := intern_of_find? (find?_of_entry he)
  facts _ _ he := h.facts_exact he

/-- **Every pool is canonical,** whatever calls it was made by, be they successful or not; and
later calls change nothing of it.  What the pool holds for a type stays, and the type stands for
the same tree. -/
theorem after_canonical (calls later : List PoolCall) :
    (after {} calls).Canonical ∧ (after {} (calls ++ later)).Canonical ∧
      ∀ t e, (after {} calls).entry t = .ok e →
        (after {} (calls ++ later)).entry t = .ok e ∧
          (after {} (calls ++ later)).unfold t = (after {} calls).unfold t := by
  have hsound := after_sound calls
  refine ⟨hsound.canonical, (after_sound (calls ++ later)).canonical, fun t e he => ?_⟩
  have hext : (after {} (calls ++ later)).Extends (after {} calls) := by
    rw [after_append]
    exact (after_grown _ later).extends_
  exact ⟨hext.entry he, hext.unfold hsound.ordered (has_iff.2 ⟨e, he⟩)⟩

end TypePool

end Graft
