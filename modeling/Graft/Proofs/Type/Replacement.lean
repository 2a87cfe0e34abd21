/-
# Substitution replaces parameters in trees

A substitution works on handles: it leaves types without parameters alone, gives back the
handle of a type in which nothing changes, stops at the first conflict and adds types to
the pool as it goes.  What it computes is the plain replacement of parameters in the tree
of the type (`ParamSubst.replaced`), and it has a result exactly if every occurrence of a
mapped parameter stands where its projection may stand (`ParamSubst.Fits`,
`ParamSubst.apply_spec`).
-/

import Graft.Proofs.Type.Total
import Graft.Proofs.Type.Unfold

namespace Graft

namespace TypeShape

variable {shape : TypeShape} {f g : TypeId → TypeTree}

/-- Where the trees of a shape agree, the trees of its parts do. -/
theorem eq_of_tree_eq (h : shape.tree f = shape.tree g) :
    ∀ part ∈ shape.children, f part = g part := by
  cases shape with
  | function params result =>
    obtain ⟨hparams, hresult⟩ : (∀ p ∈ params, f p = g p) ∧ f result = g result := by
      simpa [tree] using h
    intro part hp
    rcases List.mem_append.1 hp with hp | hp
    · exact hparams part hp
    · rwa [List.mem_singleton.1 hp]
  | _ => simp_all [tree, children]

end TypeShape

namespace ParamSubst

open TypePool

variable {s : ParamSubst} {pool pool' : TypePool} {t : TypeId} {v : Variance}

/-- What is given for a type parameter: what the map has for its handle. -/
def projection? (s : ParamSubst) (pool : TypePool) (name : Name) (id : Nat) :
    Option Projection := (pool.find? (.param name id)).bind s.get?

/-- The trees that are given for type parameters. -/
def trees (s : ParamSubst) (pool : TypePool) (name : Name) (id : Nat) : Option TypeTree :=
  (s.projection? pool name id).map fun p => pool.unfold p.ty

/-- The tree of a type with every mapped parameter replaced. -/
def replaced (s : ParamSubst) (pool : TypePool) (t : TypeId) : TypeTree :=
  (pool.unfold t).replace (s.trees pool)

/-- At a position of variance `v`, every mapped parameter in the type stands at a position
that takes what is given for it. -/
def Fits (s : ParamSubst) (pool : TypePool) (t : TypeId) (v : Variance) : Prop :=
  ∀ o ∈ (pool.unfold t).occurrences v, ∀ p, s.projection? pool o.name o.id = some p →
    o.variance.admits p.variance = true

/-! ### Types that are added change nothing -/

/-- For a parameter that the pool has, the same is given in every larger pool. -/
theorem projection?_grown (hg : Grown pool pool') {name : Name} {id : Nat}
    (hfind : ∃ u, pool.find? (.param name id) = some u) :
    s.projection? pool' name id = s.projection? pool name id := by
  obtain ⟨u, hu⟩ := hfind
  rw [projection?, projection?, hg.extends_.find? hu, hu]

/-- The trees given to parameters stay the same as the pool grows. -/
theorem trees_grown (hsound : pool.Sound) (hs : s.Within pool) (hg : Grown pool pool')
    {name : Name} {id : Nat} (hfind : ∃ u, pool.find? (.param name id) = some u) :
    s.trees pool' name id = s.trees pool name id := by
  rw [trees, trees, projection?_grown hg hfind]
  cases hp : s.projection? pool name id with
  | none => rfl
  | some p =>
    obtain ⟨u, -, hget⟩ := Option.bind_eq_some_iff.1 hp
    exact congrArg some (hg.extends_.unfold hsound.ordered (hs.get? hget))

/-- What replaces a type stays the same as the pool grows. -/
theorem replaced_grown (hsound : pool.Sound) (hs : s.Within pool) (hg : Grown pool pool')
    (ht : pool.Has t) : s.replaced pool' t = s.replaced pool t := by
  rw [replaced, replaced, hg.extends_.unfold hsound.ordered ht]
  exact TypeTree.replace_congr (v := .invariant) fun o ho =>
    trees_grown hsound hs hg (exists_find?_param hsound.ordered ht ho)

/-- Whether a type fits the substitution does not change as the pool grows. -/
theorem fits_grown (hsound : pool.Sound) (hg : Grown pool pool') (ht : pool.Has t) :
    s.Fits pool' t v ↔ s.Fits pool t v := by
  rw [Fits, Fits, hg.extends_.unfold hsound.ordered ht]
  refine forall₂_congr fun o ho => ?_
  rw [projection?_grown hg (exists_find?_param hsound.ordered ht ho)]

/-! ### One type -/

/-- Run on a sound pool, the action gives a type whose tree is that of `t` with every mapped
parameter replaced, and `t` itself where nothing changes; or it conflicts, and then some
parameter does not fit. -/
def Replaces (s : ParamSubst) (pool : TypePool) (m : SubstM TypeId) (t : TypeId) (v : Variance) :
    Prop :=
  Ends m pool
    (fun r pool' => Grown pool pool' ∧ pool'.Has r ∧ s.Fits pool t v ∧
      pool'.unfold r = s.replaced pool t ∧
      (s.replaced pool t = pool.unfold t → r = t ∧ pool' = pool))
    (fun e pool' => Grown pool pool' ∧ e = .conflict ∧ ¬ s.Fits pool t v)

/-- A type in which no mapped parameter occurs may be given back. -/
theorem replaces_pure (ht : pool.Has t)
    (hnone : ∀ o ∈ (pool.unfold t).occurrences v, s.projection? pool o.name o.id = none) :
    s.Replaces pool (pure t) t v := by
  have hself : s.replaced pool t = pool.unfold t :=
    TypeTree.replace_eq_self fun o ho => by rw [trees, hnone o ho, Option.map_none]
  refine ⟨.refl pool, ht, fun o ho p hp => ?_, hself.symm, fun _ => ⟨rfl, rfl⟩⟩
  rw [hnone o ho] at hp
  cases hp

/-- A parameter is replaced by what is given for it. -/
theorem replaces_replace (hsound : pool.Sound) (hs : s.Within pool) {e : TypeEntry}
    (he : pool.entry t = .ok e) {name : Name} {id : Nat} (hparam : e.shape = .param name id)
    (v : Variance) : s.Replaces pool (s.replace t v) t v := by
  have ht : pool.Has t := has_iff.2 ⟨e, he⟩
  have hunfold := unfold_param hsound.ordered he hparam
  have hproj : s.projection? pool name id = s.get? t := by
    rw [projection?, ← hparam, find?_of_entry he]
    rfl
  rw [replace]
  cases hget : s.get? t with
  | none =>
    refine replaces_pure ht fun o ho => ?_
    rw [hunfold] at ho
    obtain rfl := List.mem_singleton.1 ho
    exact hproj.trans hget
  | some p =>
    have hreplaced : s.replaced pool t = pool.unfold p.ty := by
      rw [replaced, hunfold, TypeTree.replace, trees, hproj, hget]
      rfl
    have hfits : s.Fits pool t v ↔ v.admits p.variance = true := by
      rw [Fits, hunfold]
      constructor
      · intro h
        exact h ⟨name, id, v⟩ (.head _) p (hproj.trans hget)
      · intro h o ho p' hp'
        obtain rfl := List.mem_singleton.1 ho
        obtain rfl : p = p' := Option.some.inj (hget.symm.trans (hproj.symm.trans hp'))
        exact h
    dsimp only
    split
    · rename_i hadmits
      refine ⟨.refl pool, hs.get? hget, hfits.2 hadmits, hreplaced.symm, fun hself => ?_⟩
      rw [hreplaced] at hself
      exact ⟨hsound.unfold_injective (hs.get? hget) ht hself, rfl⟩
    · rename_i hadmits
      exact ⟨.refl pool, rfl, fun h => hadmits (hfits.1 h)⟩

/-! ### Composite types -/

/-- Parts are replaced one after the other; what the earlier ones add to the pool is no
concern of the later ones. -/
theorem replaces_parts (hsound : pool.Sound) (hs : s.Within pool)
    {f : TypeId → Variance → SubstM TypeId} (parts : List (TypeId × Variance))
    (hf : ∀ part ∈ parts, pool.Has part.1 ∧
      ∀ pool', Grown pool pool' → s.Replaces pool' (f part.1 part.2) part.1 part.2) :
    Ends (parts.mapM fun part => f part.1 part.2) pool
      (fun rs pool' => Grown pool pool' ∧ (∀ r ∈ rs, pool'.Has r) ∧
        (∀ part ∈ parts, s.Fits pool part.1 part.2) ∧
        rs.map pool'.unfold = parts.map (fun part => s.replaced pool part.1) ∧
        ((∀ part ∈ parts, s.replaced pool part.1 = pool.unfold part.1) →
          rs = parts.map Prod.fst ∧ pool' = pool))
      (fun e pool' => Grown pool pool' ∧ e = .conflict ∧
        ¬ ∀ part ∈ parts, s.Fits pool part.1 part.2) := by
  refine Ends.mapM (I := fun done rs pool' => Grown pool pool' ∧ (∀ r ∈ rs, pool'.Has r) ∧
    (∀ part ∈ done, s.Fits pool part.1 part.2) ∧
    rs.map pool'.unfold = done.map (fun part => s.replaced pool part.1) ∧
    ((∀ part ∈ done, s.replaced pool part.1 = pool.unfold part.1) →
      rs = done.map Prod.fst ∧ pool' = pool)) parts
    ⟨.refl pool, nofun, nofun, rfl, fun _ => ⟨rfl, rfl⟩⟩ ?_
  rintro done part rest hparts rs pool₁ ⟨hg, hrs, hfits, htrees, hsame⟩
  have hpart : part ∈ parts := by simp [hparts]
  obtain ⟨hhas, hreplaces⟩ := hf part hpart
  have hsound₁ := hg.sound hsound
  -- what is said of the part in the pool that it meets holds in the first pool as well
  have hone := hreplaces pool₁ hg
  rw [Replaces, fits_grown hsound hg hhas, replaced_grown hsound hs hg hhas,
    hg.extends_.unfold hsound.ordered hhas] at hone
  refine hone.imp ?_ ?_
  · rintro r pool₂ ⟨hg₂, hr, hfit, htree, hself⟩
    refine ⟨hg.trans hg₂, ?_, ?_, ?_, fun hall => ?_⟩
    · intro u hu
      rcases List.mem_append.1 hu with hu | hu
      · exact hg₂.extends_.has (hrs u hu)
      · rwa [List.mem_singleton.1 hu]
    · intro part' hp
      rcases List.mem_append.1 hp with hp | hp
      · exact hfits part' hp
      · rwa [List.mem_singleton.1 hp]
    · have hkept : rs.map pool₂.unfold = rs.map pool₁.unfold :=
        List.map_congr_left fun u hu => hg₂.extends_.unfold hsound₁.ordered (hrs u hu)
      simp [hkept, htrees, htree]
    · obtain ⟨hdone, hlast⟩ := List.forall_mem_append.1 hall
      obtain ⟨rfl, rfl⟩ := hsame hdone
      obtain ⟨rfl, rfl⟩ := hself (hlast part (.head _))
      simp
  · rintro e pool₂ ⟨hg₂, rfl, hfit⟩
    exact ⟨hg.trans hg₂, rfl, fun hall => hfit (hall part hpart)⟩

/-- The type that interning a shape gives stands for the tree of the shape. -/
theorem unfold_intern {shape : TypeShape} (hsound : pool.Sound)
    (h : pool.intern shape = .ok (t, pool')) (hparts : ∀ part ∈ shape.children, pool.Has part) :
    pool'.Has t ∧ pool'.unfold t = shape.tree pool.unfold := by
  have hg := intern_grown h
  obtain ⟨facts, hentry⟩ := find?_eq_some.1 (find?_of_intern h)
  refine ⟨has_iff.2 ⟨_, hentry⟩, ?_⟩
  rw [unfold_eq (hg.ordered hsound.ordered) hentry]
  exact TypeShape.tree_congr fun part hp => hg.extends_.unfold hsound.ordered (hparts part hp)

/-- The tree of a composite type is replaced in its parts. -/
theorem replaced_composite (ho : pool.Ordered) {e : TypeEntry} (he : pool.entry t = .ok e)
    (hparam : ∀ name id, e.shape ≠ .param name id) :
    s.replaced pool t = e.shape.tree (s.replaced pool) := by
  rw [replaced, unfold_eq ho he, TypeShape.replace_tree hparam]
  rfl

/-- The parameters of a composite type fit if they do in its parts. -/
theorem fits_composite (ho : pool.Ordered) {e : TypeEntry} (he : pool.entry t = .ok e)
    (hparam : ∀ name id, e.shape ≠ .param name id) :
    s.Fits pool t v ↔ ∀ part ∈ e.shape.positions v, s.Fits pool part.1 part.2 := by
  rw [Fits, occurrences_unfold ho he hparam]
  constructor
  · intro h part hp o ho
    exact h o (List.mem_flatMap.2 ⟨part, hp, ho⟩)
  · intro h o ho
    obtain ⟨part, hp, ho⟩ := List.mem_flatMap.1 ho
    exact h part hp o ho

/-- A composite type is replaced if its parts are. -/
theorem replaces_composite (hsound : pool.Sound) (hs : s.Within pool) {e : TypeEntry}
    (he : pool.entry t = .ok e) (hparam : ∀ name id, e.shape ≠ .param name id)
    {f : TypeId → Variance → SubstM TypeId}
    (hf : ∀ part ∈ e.shape.positions v,
      ∀ pool', Grown pool pool' → s.Replaces pool' (f part.1 part.2) part.1 part.2) :
    s.Replaces pool
      (do
        let shape' ← e.shape.traverse f v
        if shape' = e.shape then return t else SubstM.intern shape') t v := by
  have hchildren := TypeShape.map_fst_positions v e.shape
  have hhas : ∀ part ∈ e.shape.positions v, pool.Has part.1 := fun part hp =>
    hsound.ordered.has_part he (by
      rw [← hchildren]
      exact List.mem_map_of_mem hp)
  have hreplaced := replaced_composite (s := s) hsound.ordered he hparam
  rw [TypeShape.traverse_eq, bind_map_left]
  refine Ends.bind ((replaces_parts hsound hs _ fun part hp => ⟨hhas part hp, hf part hp⟩).imp
    ?_ ?_)
  · rintro rs pool₁ ⟨hg, hrs, hfits, htrees, hsame⟩
    have hsound₁ := hg.sound hsound
    have htrees' : rs.map pool₁.unfold = e.shape.children.map (s.replaced pool) := by
      rw [htrees, ← hchildren, List.map_map]
      rfl
    have htree : (e.shape.withParts rs).tree pool₁.unfold = s.replaced pool t :=
      (TypeShape.tree_withParts htrees').trans hreplaced.symm
    have hlength : rs.length = e.shape.children.length := by
      simpa using congrArg List.length htrees'
    -- if the tree stays, the parts stay
    have hkept : s.replaced pool t = pool.unfold t → rs = e.shape.children ∧ pool₁ = pool := by
      intro hself
      rw [hreplaced, unfold_eq hsound.ordered he] at hself
      rw [← hchildren]
      refine hsame fun part hp => TypeShape.eq_of_tree_eq hself part.1 ?_
      rw [← hchildren]
      exact List.mem_map_of_mem hp
    have hfit : s.Fits pool t v := (fits_composite hsound.ordered he hparam).2 hfits
    split
    · rename_i hshape
      have hentry : pool₁.entry t = .ok e := hg.extends_.entry he
      refine ⟨hg, has_iff.2 ⟨e, hentry⟩, hfit, ?_, fun hself => ⟨rfl, (hkept hself).2⟩⟩
      rw [← htree, hshape, unfold_eq hsound₁.ordered hentry]
    · rename_i hshape
      have hparts : ∀ part ∈ (e.shape.withParts rs).children, pool₁.Has part := by
        rw [TypeShape.children_withParts hlength]
        exact hrs
      obtain ⟨r, pool₂, hi⟩ := exists_intern hparts
      obtain ⟨hr, hunfold⟩ := unfold_intern hsound₁ hi hparts
      refine Ends.of_eq_ok (show SubstM.intern _ pool₁ = .ok r pool₂ by rw [SubstM.intern, hi])
        ⟨hg.trans (intern_grown hi), hr, hfit, hunfold.trans htree, fun hself => ?_⟩
      rw [(hkept hself).1, TypeShape.withParts_children] at hshape
      exact absurd rfl hshape
  · rintro e' pool₁ ⟨hg, rfl, hfits⟩
    exact ⟨hg, rfl, fun hfit => hfits ((fits_composite hsound.ordered he hparam).1 hfit)⟩

/-- A type below a bound is replaced: the parts of a type have smaller handles. -/
theorem replaces_applyBelow (hsound : pool.Sound) (hs : s.Within pool) (bound : Nat)
    (hb : t.raw < bound) (ht : pool.Has t) (v : Variance) :
    s.Replaces pool (s.applyBelow bound t v) t v := by
  induction bound generalizing t v pool with
  | zero => omega
  | succ bound ih =>
    obtain ⟨e, he⟩ := has_iff.1 ht
    have hentry : SubstM.entry t pool = .ok e pool := by rw [SubstM.entry, he]
    rw [applyBelow]
    refine Ends.bind (Ends.of_eq_ok hentry ?_)
    split
    · rename_i hclosed
      refine replaces_pure ht fun o ho => ?_
      rw [hsound.occurrences_eq_nil he (by simpa using hclosed)] at ho
      cases ho
    · split
      · rename_i name id hparam
        exact replaces_replace hsound hs he hparam v
      · rename_i hparam
        refine replaces_composite hsound hs he hparam fun part hp pool' hg => ?_
        have hchild : part.1 ∈ e.shape.children := by
          rw [← TypeShape.map_fst_positions v]
          exact List.mem_map_of_mem hp
        have hlt := hsound.ordered.part_lt he hchild
        exact ih (hg.sound hsound) (hs.extends_ hg.extends_) (by omega)
          (hg.extends_.has (hsound.ordered.has_part he hchild)) part.2

/-- **A substitution replaces.** -/
theorem replaces_apply (hsound : pool.Sound) (hs : s.Within pool) (ht : pool.Has t)
    (v : Variance) : s.Replaces pool (s.apply t v) t v := by
  rw [apply]
  split
  · rename_i hempty
    have hnil : s.entries = [] := List.isEmpty_iff.1 hempty
    refine replaces_pure ht fun o _ => ?_
    rw [projection?, Option.bind_eq_none_iff]
    intro u _
    rw [get?, hnil]
    rfl
  · exact replaces_applyBelow hsound hs _ (Nat.lt_succ_self _) ht v

/-- **What a substitution computes.**  In every pool that can be made, a substitution of a
type of the pool, at a position of any variance, has a result if and only if every
occurrence of a mapped parameter stands at a position that admits its projection; there is
no other reason for it to stop.  The tree of the result is the tree of the type with every
mapped parameter replaced at once, and where this changes nothing the result is the type
itself and the pool is left as it is.  However it ends, the types of the pool stay. -/
theorem apply_spec (hpool : pool.Reachable) (hs : s.Within pool) (ht : pool.Has t)
    (v : Variance) :
    (Succeeds (s.apply t v) pool = true ↔ s.Fits pool t v) ∧
    (∀ r pool', s.apply t v pool = .ok r pool' →
      pool'.Has r ∧ pool'.unfold r = (pool.unfold t).replace (s.trees pool) ∧
      ((pool.unfold t).replace (s.trees pool) = pool.unfold t → r = t ∧ pool' = pool)) ∧
    (∀ e pool', s.apply t v pool = .error e pool' → e = .conflict) ∧
    ∀ pool', Leads (s.apply t v) pool pool' → pool'.Extends pool := by
  have hends := replaces_apply hpool.sound hs ht v
  refine ⟨?_, fun r pool' h => ?_, fun e pool' h => (hends.err_of_eq h).2.1, fun pool' h => ?_⟩
  · rw [succeeds_iff]
    constructor
    · rintro ⟨r, pool', h⟩
      exact (hends.ok_of_eq h).2.2.1
    · intro hfits
      cases h : s.apply t v pool with
      | ok r pool' => exact ⟨r, pool', rfl⟩
      | error e pool' => exact absurd hfits (hends.err_of_eq h).2.2
  · obtain ⟨-, hr, -, htree, hself⟩ := hends.ok_of_eq h
    exact ⟨hr, htree, hself⟩
  · have hgrown : Ends (s.apply t v) pool (fun _ => Grown pool) (fun _ => Grown pool) :=
      hends.imp (fun _ _ h => h.1) fun _ _ h => h.1
    exact (hgrown.of_leads h).extends_

end ParamSubst

/-- A pool with the types `T`, `[T]` and `([T]) -> T`. -/
def samplePool : TypePool :=
  (TypePool.typeParam {} ⟨6⟩).2.internAll [.list ⟨9⟩, .function [⟨10⟩] ⟨9⟩]

/-- The sample pool is one that calls can reach. -/
theorem samplePool_reachable : samplePool.Reachable :=
  TypePool.internAll_induction .intern (.typeParam .start ⟨6⟩) _

namespace ParamSubst

/-- `([T]) -> T` can be made `([int]) -> int`, but `out int` does not fit for both. -/
theorem apply_spec_sample :
    (∃ r pool', (insertExact {} ⟨9⟩ (.ofPrimitive .int)).apply ⟨11⟩ .covariant samplePool =
        .ok r pool' ∧
      pool'.unfold r = .function [.list (.primitive .int)] (.primitive .int)) ∧
    ¬ Fits (insert {} ⟨9⟩ ⟨.covariant, .ofPrimitive .int⟩) samplePool ⟨11⟩ .covariant := by
  have hok : Succeeds ((insertExact {} ⟨9⟩ (.ofPrimitive .int)).apply ⟨11⟩ .covariant)
      samplePool = true := by decide +kernel
  have hconflict : Succeeds ((insert {} ⟨9⟩ ⟨.covariant, .ofPrimitive .int⟩).apply ⟨11⟩
      .covariant) samplePool ≠ true := by decide +kernel
  have hwithin : (insertExact {} ⟨9⟩ (.ofPrimitive .int)).Within samplePool := by decide
  have hwithin' : (insert {} ⟨9⟩ ⟨.covariant, .ofPrimitive .int⟩).Within samplePool := by decide
  have hhas : samplePool.Has ⟨11⟩ := by decide
  obtain ⟨r, pool', h⟩ := succeeds_iff.1 hok
  have hspec := apply_spec samplePool_reachable hwithin hhas .covariant
  have hspec' := apply_spec samplePool_reachable hwithin' hhas .covariant
  -- `T` is replaced in the tree of the type
  have hreplaced : replaced (insertExact {} ⟨9⟩ (.ofPrimitive .int)) samplePool ⟨11⟩ =
      .function [.list (.primitive .int)] (.primitive .int) := by
    have hfind : samplePool.find? (.param ⟨6⟩ 0) = some ⟨9⟩ := by decide +kernel
    have htree : trees (insertExact {} ⟨9⟩ (.ofPrimitive .int)) samplePool ⟨6⟩ 0 =
        some (.primitive .int) := by
      rw [trees, projection?, hfind, Option.bind_some, insertExact, get?_insert, if_pos rfl]
      rfl
    have hunfold : samplePool.unfold ⟨11⟩ =
        .function [.list (.param ⟨6⟩ 0)] (.param ⟨6⟩ 0) := rfl
    simp only [replaced, hunfold, TypeTree.replace, TypeTree.replaceAll, htree, Option.getD_some]
  exact ⟨⟨r, pool', h, (hspec.2.1 r pool' h).2.1.trans hreplaced⟩, fun hfits =>
    hconflict (hspec'.1.2 hfits)⟩

end ParamSubst

end Graft
