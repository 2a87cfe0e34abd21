/-
# Substitutions among other calls

A pool is shared: between two substitutions others may add types to it.  This does not matter to
exact substitutions.  One after the other, with whatever calls between them, they give the type
that their composition gives, although the two ways add different types and take different
branches on the same type.  Since equal trees have one handle, it is the same handle in every pool
that both ways lead to (`ParamSubst.apply_apply`).

Exact or not, a substitution that has run once is settled: it finds all that it added, so from then
on it ends in the same way and adds nothing (`ParamSubst.apply_stable`).
-/

import Graft.Proofs.Type.Composition
import Graft.Proofs.Type.History

namespace Graft

/-- An action that cannot stop gives a value. -/
theorem Ends.exists_ok {ε τ α : Type} {m : EStateM ε τ α} {s : τ} {ok : α → τ → Prop}
    (h : Ends m s ok fun _ _ => False) : ∃ a s', m s = .ok a s' ∧ ok a s' := by
  cases hm : m s with
  | ok a s' => exact ⟨a, s', rfl, h.ok_of_eq hm⟩
  | error e s' => exact (h.err_of_eq hm).elim

namespace TypePool

/-- No calls leave the pool as it is. -/
theorem after_nil (pool : TypePool) : pool.after [] = pool := rfl

/-- The pool after calls is reached through the first of them. -/
theorem after_cons (pool : TypePool) (c : PoolCall) (calls : List PoolCall) :
    pool.after (c :: calls) = (pool.call c).after calls := rfl

/-- A call for a substitution that succeeds leaves the pool the substitution leaves. -/
theorem call_substitute {s : ParamSubst} {t r : TypeId} {v : Variance} {pool pool' : TypePool}
    (h : s.apply t v pool = .ok r pool') : pool.call (.substitute s t v) = pool' := by
  rw [call, h]

/-- Types of two later pools that stand for one tree are one type where both pools lead. -/
theorem Sound.eq_of_unfold_eq {start pool pool' common : TypePool} (h : start.Sound)
    (hg : Grown start pool) (hg' : Grown start pool') (hc : Grown pool common)
    (hc' : Grown pool' common) {z w : TypeId} (hz : pool.Has z) (hw : pool'.Has w)
    (htree : pool'.unfold w = pool.unfold z) : w = z := by
  refine ((hg.trans hc).sound h).unfold_injective (hc'.extends_.has hw) (hc.extends_.has hz) ?_
  rw [hc'.extends_.unfold (hg'.ordered h.ordered) hw, htree,
    hc.extends_.unfold (hg.ordered h.ordered) hz]

end TypePool

namespace ParamSubst

open TypePool TypeTree

variable {s t u : ParamSubst} {pool pool' start : TypePool} {x : TypeId} {v : Variance}

/-- No replacement has a parameter that is mapped. -/
def Idempotent (s : ParamSubst) (pool : TypePool) : Prop :=
  ∀ param p, s.get? param = some p →
    ∀ o ∈ (pool.unfold p.ty).occurrences .invariant, s.projection? pool o.name o.id = none

/-- What an idempotent substitution has put in stays under it. -/
theorem Idempotent.following_eq (h : s.Idempotent pool) :
    following (s.trees pool) (s.trees pool) = s.trees pool := by
  funext name id
  rw [following]
  cases htree : s.trees pool name id with
  | none => rfl
  | some r =>
    obtain ⟨p, hp, rfl⟩ := Option.map_eq_some_iff.1 htree
    obtain ⟨param, -, hget⟩ := Option.bind_eq_some_iff.1 hp
    refine congrArg some (replace_eq_self (v := .invariant) fun o ho => ?_)
    rw [trees, h param p hget o ho, Option.map_none]

/-- So a type that it was applied to stays. -/
theorem Idempotent.replaced_eq (h : s.Idempotent start) (hsound : start.Sound)
    (hs : s.Within start) (hg : Grown start pool) (hx : start.Has x) {y : TypeId}
    (hy : pool.unfold y = s.replaced start x) : s.replaced pool y = pool.unfold y := by
  rw [replaced_replaced hsound hs hs hg hx hy, h.following_eq, hy, replaced]

/-- An exact substitution has a result in every pool that came after the one it was made for. -/
theorem Exact.exists_apply (h : s.Exact) (hsound : start.Sound) (hs : s.Within start)
    (hg : Grown start pool) (hx : pool.Has x) (v : Variance) :
    ∃ r pool', s.apply x v pool = .ok r pool' ∧ Grown pool pool' ∧ pool'.Has r ∧
      pool'.unfold r = s.replaced pool x :=
  (h.apply_ends (hg.sound hsound) (hs.extends_ hg.extends_) hx v).exists_ok

/-- So to substitute again changes nothing. -/
theorem Idempotent.apply_again (h : s.Idempotent start) (hse : s.Exact) (hsound : start.Sound)
    (hs : s.Within start) (hx : start.Has x) {y : TypeId} (hy : s.apply x v start = .ok y pool)
    (calls : List PoolCall) : s.apply y v (pool.after calls) = .ok y (pool.after calls) := by
  obtain ⟨hg, hhas, htree⟩ := (hse.apply_ends hsound hs hx v).ok_of_eq hy
  have hgap := pool.after_grown calls
  have hg' := hg.trans hgap
  have hhas' := hgap.extends_.has hhas
  have hkept : (pool.after calls).unfold y = s.replaced start x :=
    (hgap.extends_.unfold (hg.ordered hsound.ordered) hhas).trans htree
  obtain ⟨r, pool', hr, -⟩ := hse.exists_apply hsound hs hg' hhas' v
  obtain ⟨-, -, -, -, hself⟩ :=
    (replaces_apply (hg'.sound hsound) (hs.extends_ hg'.extends_) hhas' v).ok_of_eq hr
  obtain ⟨rfl, rfl⟩ := hself (h.replaced_eq hsound hs hg' hx hkept)
  exact hr

/-- One after the other, with any calls between. -/
theorem Exact.apply_then (hse : s.Exact) (hte : t.Exact) (hsound : start.Sound)
    (hs : s.Within start) (ht : t.Within start) (hx : start.Has x) {y : TypeId}
    (hy : s.apply x v start = .ok y pool) (calls : List PoolCall) :
    ∃ z pool', t.apply y v (pool.after calls) = .ok z pool' ∧ Grown start pool' ∧ pool'.Has z ∧
      pool'.unfold z = (start.unfold x).replace (following (s.trees start) (t.trees start)) := by
  obtain ⟨hg, hhas, htree⟩ := (hse.apply_ends hsound hs hx v).ok_of_eq hy
  have hgap := pool.after_grown calls
  have hg' := hg.trans hgap
  obtain ⟨z, pool', hz, hg₂, hhas₂, htree₂⟩ :=
    hte.exists_apply hsound ht hg' (hgap.extends_.has hhas) v
  have hkept : (pool.after calls).unfold y = s.replaced start x :=
    (hgap.extends_.unfold (hg.ordered hsound.ordered) hhas).trans htree
  exact ⟨z, pool', hz, hg'.trans hg₂, hhas₂,
    htree₂.trans (replaced_replaced hsound hs ht hg' hx hkept)⟩

/-- The composition, with any calls before it. -/
theorem Exact.exists_andThen (hse : s.Exact) (hte : t.Exact) (hsound : start.Sound)
    (hs : s.Within start) (ht : t.Within start) (hx : start.Has x) (v : Variance)
    (calls : List PoolCall) :
    ∃ u pool, s.andThen t (start.after calls) = .ok u pool ∧ ∀ calls', ∃ w pool',
      u.apply x v (pool.after calls') = .ok w pool' ∧ Grown start pool' ∧ pool'.Has w ∧
        pool'.unfold w =
          (start.unfold x).replace (following (s.trees start) (t.trees start)) := by
  have hgap := start.after_grown calls
  have hsound' := hgap.sound hsound
  obtain ⟨u, pool, hu, hg, hue, huw, hfollow⟩ := (andThen_ends hsound' hse
    (hs.extends_ hgap.extends_) hte (ht.extends_ hgap.extends_)).exists_ok
  refine ⟨u, pool, hu, fun calls' => ?_⟩
  have hgap' := pool.after_grown calls'
  have hhas : pool.Has x := (hgap.trans hg).extends_.has hx
  obtain ⟨w, pool', hw, hg', hhas', htree⟩ :=
    hue.exists_apply (hg.sound hsound') huw hgap' (hgap'.extends_.has hhas) v
  refine ⟨w, pool', hw, ((hgap.trans hg).trans hgap').trans hg', hhas', ?_⟩
  rw [htree, replaced_grown (hg.sound hsound') huw hgap' hhas,
    replaced_of_following hsound hs ht hgap hg hx hfollow]

/-- The calls that substitute with `t` in one replacement after the other. -/
def followingCalls (t : ParamSubst) (entries : List (TypeId × Projection)) : List PoolCall :=
  entries.map fun e => .substitute t e.2.ty .invariant

/-- To compose is to make these calls. -/
theorem andThen_after (h : s.andThen t pool = .ok u pool') :
    pool' = pool.after (t.followingCalls s.entries) := by
  have hends : Ends (s.andThen t) pool
      (fun _ pool' => pool' = pool.after (t.followingCalls s.entries)) (fun _ _ => True) := by
    refine Ends.bind (Ends.imp (Ends.mapM (I := fun done _ pool' =>
      pool' = pool.after (t.followingCalls done)) s.entries rfl ?_)
        (fun _ _ h => Ends.pure h) fun _ _ h => h)
    rintro done e rest - es pool₁ rfl
    have hstep : pool.after (t.followingCalls (done ++ [e])) =
        (pool.after (t.followingCalls done)).call (.substitute t e.2.ty .invariant) := by
      rw [followingCalls, List.map_append, after_append, List.map_singleton, after_cons,
        after_nil]
      rfl
    refine Ends.bind ?_
    rw [hstep, call]
    generalize pool.after (t.followingCalls done) = pool₁
    unfold Ends
    cases t.apply e.2.ty .invariant pool₁ with
    | ok r pool₂ => rfl
    | error err pool₂ => trivial
  exact hends.ok_of_eq h

/-- **Substitution composes.**  Take any pool that calls have made, a type of it and two exact
substitutions into it.  To substitute with `s` and then with `t`, with any calls between, always
succeeds.  So does it to compose the two and to substitute with the composition, at any time after
the pool and with any calls between.  In every pool that comes after both, the two results are one
type.  In particular, where no replacement of `s` has a parameter that `s` maps, to substitute with
`s` again gives the same type and adds none. -/
theorem apply_apply (before : List PoolCall) (hse : s.Exact) (hs : s.Within (after {} before))
    (hte : t.Exact) (ht : t.Within (after {} before)) (hx : (after {} before).Has x)
    (v : Variance) :
    (∃ y pool₁, s.apply x v (after {} before) = .ok y pool₁ ∧
      ∀ calls₁, ∃ z pool₂, t.apply y v (pool₁.after calls₁) = .ok z pool₂ ∧
        ∀ calls₂, ∃ u pool₃, s.andThen t (after {} (before ++ calls₂)) = .ok u pool₃ ∧
          ∀ calls₃, ∃ w pool₄, u.apply x v (pool₃.after calls₃) = .ok w pool₄ ∧
            ∀ calls₄ calls₅, pool₂.after calls₄ = pool₄.after calls₅ → w = z) ∧
    (s.Idempotent (after {} before) →
      ∀ y pool₁, s.apply x v (after {} before) = .ok y pool₁ →
        ∀ calls, s.apply y v (pool₁.after calls) = .ok y (pool₁.after calls)) := by
  have hsound := after_sound before
  refine ⟨?_, fun hidem y pool₁ hy calls => hidem.apply_again hse hsound hs hx hy calls⟩
  obtain ⟨y, pool₁, hy, -⟩ := hse.exists_apply hsound hs (.refl _) hx v
  refine ⟨y, pool₁, hy, fun calls₁ => ?_⟩
  obtain ⟨z, pool₂, hz, hg₂, hhas₂, htree₂⟩ :=
    hse.apply_then hte hsound hs ht hx hy calls₁
  refine ⟨z, pool₂, hz, fun calls₂ => ?_⟩
  obtain ⟨u, pool₃, hu, hafter⟩ := hse.exists_andThen hte hsound hs ht hx v calls₂
  refine ⟨u, pool₃, by rwa [after_append], fun calls₃ => ?_⟩
  obtain ⟨w, pool₄, hw, hg₄, hhas₄, htree₄⟩ := hafter calls₃
  refine ⟨w, pool₄, hw, fun calls₄ calls₅ hcommon => ?_⟩
  exact hsound.eq_of_unfold_eq hg₂ hg₄ (pool₂.after_grown calls₄)
    (hcommon ▸ pool₄.after_grown calls₅) hhas₂ hhas₄ (htree₄.trans htree₂.symm)

/-- The calls that make the types `T`, `U`, `[U]` and `(T) -> T`. -/
def sampleCalls : List PoolCall :=
  [.typeParam ⟨6⟩, .typeParam ⟨7⟩, .intern (.list ⟨10⟩), .intern (.function [⟨9⟩] ⟨9⟩)]

/-- `[U]` for `T`. -/
def listForParam : ParamSubst := insertExact {} ⟨9⟩ ⟨11⟩

/-- `int` for `U`. -/
def intForParam : ParamSubst := insertExact {} ⟨10⟩ (.ofPrimitive .int)

/-- The substitution of a list for a parameter changes nothing when it is applied again. -/
theorem listForParam_idempotent : listForParam.Idempotent (after {} sampleCalls) := by
  intro param p hp o ho
  have hp' : p = ⟨.invariant, ⟨11⟩⟩ := by
    rw [listForParam, insertExact, get?_insert] at hp
    split at hp
    · exact (Option.some.inj hp).symm
    · cases hp
  have hone : ((after {} sampleCalls).unfold ⟨11⟩).occurrences .invariant =
      [⟨⟨7⟩, 1, .invariant⟩] := by decide +kernel
  rw [hp', hone] at ho
  obtain rfl := List.mem_singleton.1 ho
  decide +kernel

/-- In `(T) -> T`, first `[U]` for `T` and then `int` for `U` is what their composition gives at
once; and to put in `[U]` again changes nothing. -/
theorem apply_apply_sample :
    ∃ y pool₁ z pool₂ u pool₃ pool₄,
      listForParam.apply ⟨12⟩ .covariant (after {} sampleCalls) = .ok y pool₁ ∧
      intForParam.apply y .covariant pool₁ = .ok z pool₂ ∧
      listForParam.andThen intForParam pool₂ = .ok u pool₃ ∧
      u.apply ⟨12⟩ .covariant pool₃ = .ok z pool₄ ∧
      listForParam.apply y .covariant pool₁ = .ok y pool₁ := by
  obtain ⟨⟨y, pool₁, hy, h⟩, hagain⟩ := apply_apply sampleCalls (s := listForParam)
    (t := intForParam) (x := ⟨12⟩) (by decide) (by decide +kernel) (by decide) (by decide +kernel)
    (by decide +kernel) .covariant
  obtain ⟨z, pool₂, hz, h⟩ := h []
  -- the two are composed after they were made one after the other
  obtain ⟨u, pool₃, hu, h⟩ :=
    h [.substitute listForParam ⟨12⟩ .covariant, .substitute intForParam y .covariant]
  obtain ⟨w, pool₄, hw, h⟩ := h []
  rw [after_nil] at hz hw
  have hpool : after {} (sampleCalls ++ [.substitute listForParam ⟨12⟩ .covariant,
      .substitute intForParam y .covariant]) = pool₂ := by
    rw [after_append, after_cons, call_substitute hy, after_cons, call_substitute hz, after_nil]
  rw [hpool] at hu
  obtain rfl : w = z := by
    refine h (intForParam.followingCalls listForParam.entries ++
      [.substitute u ⟨12⟩ .covariant]) [] ?_
    rw [after_append, ← andThen_after hu, after_cons, call_substitute hw]
  exact ⟨y, pool₁, w, pool₂, u, pool₃, pool₄, hy, hz, hu, hw,
    hagain listForParam_idempotent y pool₁ hy []⟩

/-! ### Substituting once more -/

/-- **A substitution is stable.**  Take any pool that calls have made, a type of it and a
substitution into it, at a position of any variance.  The substitution gives a type, or it conflicts
and leaves behind what it had added by then.  Whatever calls are made after that, it gives the same
type again, or conflicts again, and leaves the pool as it finds it. -/
theorem apply_stable (before : List PoolCall) (hs : s.Within (after {} before))
    (hx : (after {} before).Has x) (v : Variance) :
    ∃ pool, (∃ r, s.apply x v (after {} before) = .ok r pool ∧
        ∀ calls, s.apply x v (pool.after calls) = .ok r (pool.after calls)) ∨
      s.apply x v (after {} before) = .error .conflict pool ∧
        ∀ calls, s.apply x v (pool.after calls) = .error .conflict (pool.after calls) := by
  have hsteady := s.steady_apply x v (after {} before)
  have htotal := apply_total hs hx (after_sound before).ordered v
  cases happly : s.apply x v (after {} before) with
  | ok r pool =>
    obtain ⟨-, hagain⟩ := hsteady.ok_of_eq happly
    exact ⟨pool, .inl ⟨r, rfl, fun calls => hagain _ (pool.after_grown calls).extends_⟩⟩
  | error e pool =>
    -- the types are all there, so it can only be a conflict
    obtain ⟨rfl, -⟩ := htotal.err_of_eq happly
    obtain ⟨-, hagain⟩ := hsteady.err_of_eq happly
    exact ⟨pool, .inr ⟨rfl, fun calls => hagain rfl _ (pool.after_grown calls).extends_⟩⟩

/-- The calls that make the type `([T]) -> T` as well. -/
def consumerCalls : List PoolCall :=
  sampleCalls ++ [.intern (.list ⟨9⟩), .intern (.function [⟨13⟩] ⟨9⟩)]

/-- `in int` for `T`. -/
def consumedInt : ParamSubst := insert {} ⟨9⟩ ⟨.contravariant, .ofPrimitive .int⟩

/-- In `([T]) -> T`, `in int` fits for the first `T` only.  By the time it conflicts the pool has
`[int]`, and there it stays: after any calls it conflicts again and adds nothing. -/
theorem apply_stable_sample :
    ∃ pool, consumedInt.apply ⟨14⟩ .covariant (after {} consumerCalls) = .error .conflict pool ∧
      pool.find? (.list (.ofPrimitive .int)) = some ⟨15⟩ ∧
      ∀ calls, consumedInt.apply ⟨14⟩ .covariant (pool.after calls) =
        .error .conflict (pool.after calls) := by
  have hstops : ¬ Succeeds (consumedInt.apply ⟨14⟩ .covariant) (after {} consumerCalls) := by
    decide +kernel
  obtain ⟨pool, ⟨r, hr, -⟩ | ⟨hconflict, hagain⟩⟩ := apply_stable consumerCalls
    (s := consumedInt) (x := ⟨14⟩) (by decide +kernel) (by decide +kernel) .covariant
  · exact absurd (succeeds_iff.2 ⟨r, pool, hr⟩) hstops
  · have hpool :
        (after {} consumerCalls).call (.substitute consumedInt ⟨14⟩ .covariant) = pool := by
      rw [call, hconflict]
    refine ⟨pool, hconflict, ?_, hagain⟩
    rw [← hpool]
    decide +kernel

end ParamSubst

end Graft
