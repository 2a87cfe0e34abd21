/-
# A substitution meets no unknown type

In a pool that keeps the order of its types, a substitution whose replacements
are in the pool takes apart only types of the pool and adds only types whose
parts are there (`ParamSubst.apply_total`).  It ends with a type of the pool or
with a conflict, and the pool keeps its order.
-/

import Graft.Proofs.Type.Replay

namespace Graft

namespace ParamSubst

open TypePool

/-- Every replacement is in the pool. -/
def Within (s : ParamSubst) (pool : TypePool) : Prop := ∀ e ∈ s.entries, pool.Has e.2.ty

instance (s : ParamSubst) (pool : TypePool) : Decidable (s.Within pool) :=
  inferInstanceAs (Decidable (∀ e ∈ s.entries, pool.Has e.2.ty))

variable {s : ParamSubst} {pool pool' : TypePool}

/-- A substitution within a pool is within one that extends it. -/
theorem Within.extends_ (h : s.Within pool) (hp : pool'.Extends pool) : s.Within pool' :=
  fun e he => hp.has (h e he)

/-- A substitution within a pool, where a copy may have none. -/
theorem Within.of_mem_some (h : s.Within pool) : ∀ s' ∈ some s, s'.Within pool := by
  rintro _ ⟨⟩
  exact h

/-- What a parameter is replaced by is a type of the pool. -/
theorem Within.get? (h : s.Within pool) {param : TypeId} {p : Projection}
    (hp : s.get? param = some p) : pool.Has p.ty := by
  obtain ⟨before, after, he, -⟩ := List.lookup_eq_some_iff.1 hp
  exact h (param, p) (he ▸ List.mem_append_right _ (.head _))

/-- The action ends with a type of the pool or conflicts, and the pool grows. -/
def Total (m : SubstM TypeId) (pool : TypePool) : Prop :=
  Ends m pool (fun t pool' => Grown pool pool' ∧ pool'.Has t)
    (fun e pool' => e = .conflict ∧ Grown pool pool')

/-- Parts that are replaced one after the other are all in the pool at the end. -/
theorem mapM_total {f : TypeId → SubstM TypeId} {ts : List TypeId}
    (hf : ∀ t ∈ ts, ∀ pool', Grown pool pool' → Total (f t) pool') :
    Ends (ts.mapM f) pool (fun ts' pool' => Grown pool pool' ∧ ∀ t ∈ ts', pool'.Has t)
      (fun e pool' => e = .conflict ∧ Grown pool pool') := by
  refine Ends.mapM (I := fun _ ts' pool' => Grown pool pool' ∧ ∀ t ∈ ts', pool'.Has t)
    ts ⟨.refl _, fun t h => nomatch h⟩ ?_
  rintro done t rest hts values pool' ⟨hg, hv⟩
  have ht : t ∈ ts := hts ▸ List.mem_append_right _ (.head _)
  refine (hf t ht pool' hg).imp (fun t' pool'' h => ?_) fun e pool'' h => ⟨h.1, hg.trans h.2⟩
  refine ⟨hg.trans h.1, fun u hu => ?_⟩
  rcases List.mem_append.1 hu with hu | hu
  · exact h.1.extends_.has (hv u hu)
  · obtain rfl := List.mem_singleton.1 hu
    exact h.2

/-- A shape whose parts can all be replaced becomes a shape with its parts in the
pool. -/
theorem traverse_total {f : TypeId → Variance → SubstM TypeId} {shape : TypeShape}
    (hf : ∀ part ∈ shape.children, ∀ v pool', Grown pool pool' → Total (f part v) pool')
    (v : Variance) :
    Ends (shape.traverse f v) pool
      (fun shape' pool' => Grown pool pool' ∧ ∀ part ∈ shape'.children, pool'.Has part)
      (fun e pool' => e = .conflict ∧ Grown pool pool') := by
  cases shape with
  | primitive p => exact ⟨.refl _, fun part h => nomatch h⟩
  | param name id => exact ⟨.refl _, fun part h => nomatch h⟩
  | list elem =>
    refine Ends.bind ((hf elem (.head _) v pool (.refl _)).imp (fun t pool' h => ?_)
      fun _ _ h => h)
    exact ⟨h.1, List.forall_mem_singleton.2 h.2⟩
  | option inner =>
    refine Ends.bind ((hf inner (.head _) v pool (.refl _)).imp (fun t pool' h => ?_)
      fun _ _ h => h)
    exact ⟨h.1, List.forall_mem_singleton.2 h.2⟩
  | map key value =>
    refine Ends.bind ((hf key (.head _) .invariant pool (.refl _)).imp (fun k pool' h => ?_)
      fun _ _ h => h)
    refine Ends.bind ((hf value (.tail _ (.head _)) v pool' h.1).imp (fun u pool'' h' => ?_)
      fun _ _ h' => ⟨h'.1, h.1.trans h'.2⟩)
    refine ⟨h.1.trans h'.1, List.forall_mem_cons.2 ⟨h'.1.extends_.has h.2, ?_⟩⟩
    exact List.forall_mem_singleton.2 h'.2
  | function params result =>
    refine Ends.bind ((mapM_total fun t ht => hf t (List.mem_append_left _ ht) v.flip).imp
      (fun ts pool' h => ?_) fun _ _ h => h)
    have hr : result ∈ (TypeShape.function params result).children :=
      List.mem_append_right _ (.head _)
    refine Ends.bind ((hf result hr v pool' h.1).imp (fun u pool'' h' => ?_)
      fun _ _ h' => ⟨h'.1, h.1.trans h'.2⟩)
    refine ⟨h.1.trans h'.1, List.forall_mem_append.2 ⟨fun t ht => ?_, ?_⟩⟩
    · exact h'.1.extends_.has (h.2 t ht)
    · exact List.forall_mem_singleton.2 h'.2
  | named name args =>
    exact Ends.bind ((mapM_total fun t ht => hf t ht .invariant).imp (fun ts pool' h => h)
      fun _ _ h => h)

/-- The replacement of a parameter of the pool does not run out of the arena. -/
theorem replace_total (hs : s.Within pool) {param : TypeId}
    (hp : pool.Has param) (v : Variance) : Total (s.replace param v) pool := by
  unfold replace
  split
  · exact ⟨.refl _, hp⟩
  · rename_i p hget
    split
    · exact ⟨.refl _, hs.get? hget⟩
    · exact ⟨rfl, .refl _⟩

/-- The bound on the handle bounds the depth: every part has a smaller handle. -/
theorem applyBelow_total (hs : s.Within pool) (bound : Nat) {t : TypeId} (hb : t.raw < bound)
    (ht : pool.Has t) (ho : pool.Ordered) (v : Variance) :
    Total (s.applyBelow bound t v) pool := by
  induction bound generalizing t v pool with
  | zero => omega
  | succ bound ih =>
    obtain ⟨e, he⟩ := has_iff.1 ht
    rw [applyBelow]
    have hentry : SubstM.entry t pool = .ok e pool := by rw [SubstM.entry, he]
    refine Ends.bind (Ends.of_eq_ok hentry ?_)
    split
    · exact ⟨.refl _, ht⟩
    · split
      · exact replace_total hs ht v
      · have hpart : ∀ part ∈ e.shape.children, ∀ v pool', Grown pool pool' →
            Total (s.applyBelow bound part v) pool' := fun part hp v pool' hg => by
          have hlt := ho.part_lt he hp
          exact ih (hs.extends_ hg.extends_) (by omega)
            (hg.extends_.has (Nat.lt_trans hlt ht)) (hg.ordered ho) v
        refine Ends.bind ((traverse_total hpart v).imp (fun shape' pool' h => ?_) fun _ _ h => h)
        split
        · exact ⟨h.1, h.1.extends_.has ht⟩
        · obtain ⟨t', pool'', hi⟩ := exists_intern h.2
          refine Ends.of_eq_ok (show SubstM.intern shape' pool' = .ok t' pool'' by
            rw [SubstM.intern, hi]) ⟨h.1.trans (intern_grown hi), ?_⟩
          exact has_of_find? (find?_of_intern hi)

/-- **A substitution meets no unknown type.** -/
theorem apply_total (hs : s.Within pool) {t : TypeId} (ht : pool.Has t) (ho : pool.Ordered)
    (v : Variance) : Total (s.apply t v) pool := by
  unfold apply
  split
  · exact ⟨.refl _, ht⟩
  · exact applyBelow_total hs _ (Nat.lt_succ_self _) ht ho v

/-- Where there is no result the type stays as it is, so a type of the pool always
becomes a type of the pool. -/
theorem applyOrKeep_total {σ : Type} {subst : Option ParamSubst} (hs : ∀ s ∈ subst, s.Within pool)
    {t : TypeId} (ht : pool.Has t) (ho : pool.Ordered) (memory : σ) :
    Ends (Substitutor.applyOrKeep (substitutor? subst) t) (pool, memory)
      (fun t' s => s.1.Has t' ∧ s.1.Ordered) (fun _ _ => False) := by
  cases subst with
  | none => exact ⟨ht, ho⟩
  | some s =>
    have heq := s.applyOrKeep_some t pool memory
    have htotal := apply_total (hs s rfl) ht ho .invariant
    cases h : s.apply t .invariant pool with
    | ok t' pool' =>
      rw [h] at heq
      obtain ⟨hg, ht'⟩ := htotal.ok_of_eq h
      exact Ends.of_eq_ok heq ⟨ht', hg.ordered ho⟩
    | error e pool' =>
      obtain ⟨rfl, hg⟩ := htotal.err_of_eq h
      rw [h] at heq
      exact Ends.of_eq_ok heq ⟨hg.extends_.has ht, hg.ordered ho⟩

end ParamSubst

end Graft
