/-
# Which type parameters are new

A type parameter is told by its name and its number, and the pool gives the numbers out in order:
the parameter that is numbered after some calls has the number of those among them that numbered
one (`PoolCall.numbered`).  But a shape may be interned that is a parameter with any number, and
numbering a parameter finds what is there.  So a numbered parameter is new unless it was interned
before with just this name and number, and no two numbered parameters are the same, whatever else
is done (`TypePool.typeParam_fresh`).
-/

import Graft.Proofs.Type.History
import Mathlib.Data.List.Induction

namespace Graft

/-- How many of the calls number a type parameter. -/
def PoolCall.numbered (calls : List PoolCall) : Nat :=
  calls.countP fun
    | .typeParam _ => true
    | _ => false

namespace TypePool

open PoolCall (numbered)

variable {pool pool' : TypePool} {shape other : TypeShape} {t u : TypeId}

/-! ### What single calls add -/

/-- A shape that is found in a larger pool was there, or it is the one that was added. -/
theorem find?_of_push {facts : TypeFacts} {hnew : pool.find? shape = none}
    (h : (pool.push shape facts hnew).2.find? other = some t) :
    pool.find? other = some t ∨ shape = other := by
  obtain ⟨facts', he⟩ := find?_eq_some.1 h
  rw [entry_push] at he
  split at he
  · exact .inr (congrArg TypeEntry.shape he).symm
  · exact .inl (find?_eq_some.2 ⟨facts', he⟩)

/-- What is found after an interning was there before, or is what was interned. -/
theorem find?_of_intern_other (h : pool.intern shape = .ok (t, pool'))
    (hother : pool'.find? other = some u) : pool.find? other = some u ∨ shape = other := by
  rcases intern_eq_ok h with ⟨-, rfl⟩ | ⟨hnew, parts, -, he⟩
  · exact .inl hother
  · obtain rfl := congrArg Prod.snd he
    exact find?_of_push hother

/-- Interning draws no number. -/
theorem nextParam_intern (h : pool.intern shape = .ok (t, pool')) :
    pool'.nextParam = pool.nextParam := by
  rcases intern_eq_ok h with ⟨-, rfl⟩ | ⟨hnew, parts, -, he⟩
  · rfl
  · obtain rfl := congrArg Prod.snd he
    rfl

/-- A new parameter draws one number. -/
theorem nextParam_typeParam (pool : TypePool) (name : Name) :
    (pool.typeParam name).2.nextParam = pool.nextParam + 1 := by
  rcases pool.typeParam_eq name with ⟨t, -, h⟩ | ⟨hnew, h⟩
  · rw [h]
  · exact congrArg (fun r => r.2.nextParam) h

/-- The parameter that is numbered is found afterwards. -/
theorem find?_typeParam (pool : TypePool) (name : Name) :
    (pool.typeParam name).2.find? (.param name pool.nextParam) =
      some (pool.typeParam name).1 := by
  rcases pool.typeParam_eq name with ⟨t, hf, h⟩ | ⟨hnew, h⟩ <;> rw [h]
  · exact hf
  · exact find?_of_entry entry_push_self

/-- A parameter of the next number is new if there is none of this name and number. -/
theorem typeParam_new_iff (pool : TypePool) (name : Name) :
    ¬ pool.Has (pool.typeParam name).1 ↔ pool.find? (.param name pool.nextParam) = none := by
  rcases pool.typeParam_eq name with ⟨t, hf, h⟩ | ⟨hf, h⟩ <;> rw [h, hf]
  · exact iff_of_false (not_not_intro (has_of_find? hf)) nofun
  · exact iff_of_true (Nat.lt_irrefl pool.size) rfl

/-! ### Substitutions number no parameters -/

/-- From the one pool to the other no type parameter was added or numbered. -/
structure SameParams (pool pool' : TypePool) : Prop where
  nextParam : pool'.nextParam = pool.nextParam
  found : ∀ name id t, pool'.find? (.param name id) = some t →
    pool.find? (.param name id) = some t

/-- A pool has the parameters that it has. -/
theorem SameParams.refl (pool : TypePool) : pool.SameParams pool := ⟨rfl, fun _ _ _ h => h⟩

/-- Pools with the same parameters, one after another. -/
theorem SameParams.trans {a b c : TypePool} (h : a.SameParams b) (h' : b.SameParams c) :
    a.SameParams c :=
  ⟨h'.nextParam.trans h.nextParam, fun name id t ht => h.found name id t (h'.found name id t ht)⟩

end TypePool

/-- The action adds and numbers no type parameters, however it ends. -/
def SubstM.NoParams {α : Type} (m : SubstM α) : Prop :=
  ∀ pool, Ends m pool (fun _ => pool.SameParams) (fun _ => pool.SameParams)

namespace SubstM

open TypePool

variable {α β : Type}

/-- To return a value adds no parameter. -/
theorem noParams_pure (a : α) : NoParams (pure a) := fun pool => SameParams.refl pool

/-- Two steps that add no parameter add none together. -/
theorem NoParams.bind {m : SubstM α} {f : α → SubstM β} (hm : NoParams m)
    (hf : ∀ a, NoParams (f a)) : NoParams (m >>= f) := fun pool =>
  Ends.bind ((hm pool).imp (fun a pool₁ h =>
    (hf a pool₁).imp (fun _ _ h' => h.trans h') fun _ _ h' => h.trans h') fun _ _ h => h)

/-- Steps over a list that each add no parameter add none together. -/
theorem NoParams.mapM {f : α → SubstM β} (hf : ∀ a, NoParams (f a)) (xs : List α) :
    NoParams (xs.mapM f) := by
  induction xs with
  | nil => exact noParams_pure []
  | cons x xs ih =>
    rw [List.mapM_cons]
    exact (hf x).bind fun _ => ih.bind fun _ => noParams_pure _

/-- To read an entry adds no parameter. -/
theorem noParams_entry (t : TypeId) : NoParams (entry t) := by
  intro pool
  unfold Ends entry
  cases pool.entry t with
  | ok e => exact .refl pool
  | error u => exact .refl pool

/-- Interning adds no parameter but the shape itself. -/
theorem noParams_intern {shape : TypeShape} (h : ∀ name id, shape ≠ .param name id) :
    NoParams (intern shape) := by
  intro pool
  unfold Ends intern
  cases hi : pool.intern shape with
  | ok r =>
    exact ⟨nextParam_intern hi, fun name id t ht =>
      (find?_of_intern_other hi ht).resolve_right (h name id)⟩
  | error u => exact .refl pool

end SubstM

/-- Other parts make no parameter of a shape. -/
theorem TypeShape.withParts_ne_param {shape : TypeShape} (h : ∀ name id, shape ≠ .param name id)
    (parts : List TypeId) (name : Name) (id : Nat) : shape.withParts parts ≠ .param name id := by
  cases shape with
  | param name' id' => exact absurd rfl (h name' id')
  | _ => exact nofun

namespace ParamSubst

open SubstM

variable (s : ParamSubst)

/-- A substitution adds no parameter, however far it is followed. -/
theorem noParams_applyBelow (bound : Nat) (t : TypeId) (v : Variance) :
    NoParams (s.applyBelow bound t v) := by
  induction bound generalizing t v with
  | zero => exact fun pool => .refl pool
  | succ bound ih =>
    rw [applyBelow]
    refine (noParams_entry t).bind fun e => ?_
    split
    · exact noParams_pure t
    split
    · unfold replace
      split
      · exact noParams_pure t
      · split
        · exact noParams_pure _
        · exact fun pool => .refl pool
    · rename_i hshape
      rw [TypeShape.traverse_eq, map_eq_pure_bind, bind_assoc]
      refine (NoParams.mapM (fun (part : TypeId × Variance) => ih part.1 part.2) _).bind
        fun parts => ?_
      rw [pure_bind]
      split
      · exact noParams_pure t
      · exact noParams_intern (TypeShape.withParts_ne_param hshape parts)

/-- A substitution adds no parameter. -/
theorem noParams_apply (t : TypeId) (v : Variance) : NoParams (s.apply t v) := by
  unfold apply
  split
  · exact noParams_pure t
  · exact s.noParams_applyBelow _ t v

end ParamSubst

namespace TypePool

open PoolCall (numbered)

variable {pool : TypePool} {name : Name} {id : Nat} {t : TypeId}

/-! ### Calls in a row -/

/-- Only numbering a parameter uses a number up. -/
theorem nextParam_call (pool : TypePool) (c : PoolCall) :
    (pool.call c).nextParam = pool.nextParam + numbered [c] := by
  cases c with
  | intern shape =>
    rw [call]
    cases hi : pool.intern shape with
    | ok r => exact nextParam_intern hi
    | error u => rfl
  | typeParam name => exact pool.nextParam_typeParam name
  | substitute s t v =>
    rw [call]
    have hnone := s.noParams_apply t v pool
    cases happly : s.apply t v pool with
    | ok r pool' => exact (hnone.ok_of_eq happly).nextParam
    | error e pool' => exact (hnone.err_of_eq happly).nextParam

/-- The next number is the number of parameters that were numbered. -/
theorem nextParam_after (pool : TypePool) (calls : List PoolCall) :
    (pool.after calls).nextParam = pool.nextParam + numbered calls := by
  induction calls generalizing pool with
  | nil => rfl
  | cons c calls ih =>
    have hsplit : numbered ([c] ++ calls) = numbered [c] + numbered calls := List.countP_append
    rw [List.singleton_append] at hsplit
    rw [hsplit, ← Nat.add_assoc, ← nextParam_call]
    exact ih (pool.call c)

/-- After calls on a new pool, the next number is how many parameters they made. -/
theorem nextParam_after_default (calls : List PoolCall) :
    (after {} calls).nextParam = numbered calls :=
  (nextParam_after {} calls).trans (Nat.zero_add _)

/-- A parameter that is there after a call was there before, or the call interned it or numbered
it. -/
theorem find?_param_call (c : PoolCall) (h : (pool.call c).find? (.param name id) = some t) :
    pool.find? (.param name id) = some t ∨ c = .intern (.param name id) ∨
      c = .typeParam name ∧ id = pool.nextParam := by
  cases c with
  | intern shape =>
    rw [call] at h
    cases hi : pool.intern shape with
    | ok r =>
      rw [hi] at h
      exact (find?_of_intern_other hi h).imp_right fun hshape =>
        .inl (congrArg PoolCall.intern hshape)
    | error u =>
      rw [hi] at h
      exact .inl h
  | typeParam name' =>
    rw [call] at h
    rcases pool.typeParam_eq name' with ⟨u, -, heq⟩ | ⟨hnew, heq⟩
    · rw [heq] at h
      exact .inl h
    · rw [heq] at h
      refine (find?_of_push h).imp_right fun hshape => .inr ?_
      cases hshape
      exact ⟨rfl, rfl⟩
  | substitute s u v =>
    rw [call] at h
    have hnone := s.noParams_apply u v pool
    cases happly : s.apply u v pool with
    | ok r pool' =>
      rw [happly] at h
      exact .inl ((hnone.ok_of_eq happly).found name id t h)
    | error e pool' =>
      rw [happly] at h
      exact .inl ((hnone.err_of_eq happly).found name id t h)

/-- **Where a parameter comes from.**  It was interned as it is, or its number was given out. -/
theorem param_origin (calls : List PoolCall)
    (h : (after {} calls).find? (.param name id) = some t) :
    .intern (.param name id) ∈ calls ∨ id < numbered calls := by
  induction calls using List.reverseRecOn generalizing t with
  | nil =>
    have hnone : ({} : TypePool).find? (.param name id) = none := by
      refine Option.eq_none_iff_forall_ne_some.2 fun u hu => ?_
      obtain ⟨facts, he⟩ := find?_eq_some.1 hu
      have hshape := (entry_eq_ok.1 he).1
      rw [shapes_default] at hshape
      obtain ⟨p, -, hp⟩ := List.mem_map.1 (List.mem_toArray.1 (Array.mem_of_getElem? hshape))
      cases hp
    exact absurd (hnone.symm.trans h) nofun
  | append_singleton calls c ih =>
    have hcount : numbered (calls ++ [c]) = numbered calls + numbered [c] := List.countP_append
    rw [after_append] at h
    rcases find?_param_call c h with hthere | rfl | ⟨rfl, rfl⟩
    · exact (ih hthere).imp (List.mem_append_left _) fun hlt => by omega
    · exact .inl (List.mem_append_right _ (.head _))
    · have hone : numbered [.typeParam name] = 1 := rfl
      rw [nextParam_after_default]
      exact .inr (by omega)

/-- A shape that is interned is there, if the pool has its parts; a parameter has none. -/
theorem find?_call_intern (pool : TypePool) (name : Name) (id : Nat) :
    ∃ t, (pool.call (.intern (.param name id))).find? (.param name id) = some t := by
  obtain ⟨t, pool', hi⟩ : ∃ t pool', pool.intern (.param name id) = .ok (t, pool') :=
    exists_intern nofun
  refine ⟨t, ?_⟩
  rw [call, hi]
  exact find?_of_intern hi

/-- A parameter that was interned is there. -/
theorem find?_of_mem_calls (pool : TypePool) {calls : List PoolCall}
    (h : .intern (.param name id) ∈ calls) :
    ∃ t, (pool.after calls).find? (.param name id) = some t := by
  obtain ⟨before, later, rfl⟩ := List.append_of_mem h
  obtain ⟨t, ht⟩ := (pool.after before).find?_call_intern name id
  rw [after_append]
  exact ⟨t, (after_grown _ later).extends_.find? ht⟩

/-- **Which type parameters are new.**  After any calls, be they successful or not, numbering a type
parameter gives a type with the name and the number of parameters that were numbered before.  It is
a type that the pool did not have if and only if no shape was interned before that is a parameter
of this name and number.  In any case it is another type than what is ever numbered later, under
whatever name. -/
theorem typeParam_fresh (calls : List PoolCall) (name : Name) :
    (∃ facts, ((after {} calls).typeParam name).2.entry ((after {} calls).typeParam name).1 =
      .ok ⟨.param name (numbered calls), facts⟩) ∧
    (¬ (after {} calls).Has ((after {} calls).typeParam name).1 ↔
      .intern (.param name (numbered calls)) ∉ calls) ∧
    ∀ later other, ((after {} calls).typeParam name).1 ≠
      ((after {} (calls ++ .typeParam name :: later)).typeParam other).1 := by
  have hnumber := nextParam_after_default calls
  have hfind := (after {} calls).find?_typeParam name
  rw [hnumber] at hfind
  refine ⟨find?_eq_some.1 hfind, ?_, fun later other heq => ?_⟩
  · rw [typeParam_new_iff, hnumber]
    constructor
    · intro hnone hmem
      obtain ⟨t, ht⟩ := find?_of_mem_calls {} hmem
      exact absurd (hnone.symm.trans ht) nofun
    · intro hnot
      refine Option.eq_none_iff_forall_ne_some.2 fun t ht => ?_
      rcases param_origin calls ht with hmem | hlt
      · exact hnot hmem
      · exact Nat.lt_irrefl _ hlt
  · -- the later parameter has a larger number, so the two have different shapes
    have hlater := (after {} (calls ++ .typeParam name :: later)).find?_typeParam other
    rw [nextParam_after_default] at hlater
    have hext : ((after {} (calls ++ .typeParam name :: later)).typeParam other).2.Extends
        ((after {} calls).typeParam name).2 := by
      rw [after_append]
      exact (after_grown _ later).extends_.trans (typeParam_grown _ other).extends_
    have hearlier := hext.find? hfind
    rw [heq] at hearlier
    obtain ⟨facts, hentry⟩ := find?_eq_some.1 hearlier
    obtain ⟨facts', hentry'⟩ := find?_eq_some.1 hlater
    have hsame := hentry.symm.trans hentry'
    have hcount : numbered (calls ++ .typeParam name :: later) =
        numbered calls + (numbered later + 1) := by
      rw [numbered, List.countP_append]
      exact congrArg _ (List.countP_cons_of_pos rfl)
    injection hsame with hsame
    injection hsame with hshape
    injection hshape with _ hid
    omega

/-- A parameter that was interned with the number to be given out next is found and not added:
numbering it gives a type that was there. -/
theorem typeParam_found :
    (after {} [.intern (.param ⟨1⟩ 0)]).Has
      ((after {} [.intern (.param ⟨1⟩ 0)]).typeParam ⟨1⟩).1 := by
  decide +kernel

end TypePool

end Graft
