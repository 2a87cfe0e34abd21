/-
# What a type of a pool stands for

A handle stands for the tree that is found by following the handles of the parts
(`TypePool.unfold`), which ends since a type comes after its parts.  The tree is the same
in every larger pool (`TypePool.Extends.unfold`).  In a sound pool different types stand
for different trees (`TypePool.Sound.unfold_injective`), a parameter that occurs in a type
is in the pool (`TypePool.exists_find?_param`), and no parameter occurs in a type whose
facts say so (`TypePool.Sound.occurrences_eq_nil`).
-/

import Graft.Proofs.Type.Sound
import Graft.Proofs.Type.Structure

namespace Graft

namespace TypeShape

/-- The tree of a shape, given the trees of its parts. -/
def tree (part : TypeId → TypeTree) : TypeShape → TypeTree
  | .primitive p => .primitive p
  | .param name id => .param name id
  | .list elem => .list (part elem)
  | .option inner => .option (part inner)
  | .map key value => .map (part key) (part value)
  | .function params result => .function (params.map part) (part result)
  | .named name args => .named name (args.map part)

/-- The parts of a shape that stands at variance `v`, each with the variance of its own
position. -/
def positions (v : Variance) : TypeShape → List (TypeId × Variance)
  | .primitive _ => []
  | .param _ _ => []
  | .list elem => [(elem, v)]
  | .option inner => [(inner, v)]
  | .map key value => [(key, .invariant), (value, v)]
  | .function params result => params.map (·, v.flip) ++ [(result, v)]
  | .named _ args => args.map (·, .invariant)

/-- The shape with other parts, from left to right. -/
def withParts : TypeShape → List TypeId → TypeShape
  | .primitive p, _ => .primitive p
  | .param name id, _ => .param name id
  | .list elem, parts => .list (parts.headD elem)
  | .option inner, parts => .option (parts.headD inner)
  | .map key value, parts => .map (parts.headD key) (parts.getLastD value)
  | .function _ result, parts => .function parts.dropLast (parts.getLastD result)
  | .named name _, parts => .named name parts

variable {shape shape' : TypeShape} {f g : TypeId → TypeTree} {parts : List TypeId}

/-- The positions of a shape are those of its children. -/
theorem map_fst_positions (v : Variance) (shape : TypeShape) :
    (shape.positions v).map Prod.fst = shape.children := by
  cases shape <;> simp [positions, children, Function.comp_def]

/-- A shape put together from its own children is itself. -/
theorem withParts_children (shape : TypeShape) : shape.withParts shape.children = shape := by
  cases shape <;> simp [withParts, children]

/-- A shape put together from as many parts as it has children has those parts as children. -/
theorem children_withParts (h : parts.length = shape.children.length) :
    (shape.withParts parts).children = parts := by
  cases shape with
  | primitive | param => exact (List.length_eq_zero_iff.1 h).symm
  | list | option =>
    obtain ⟨part, rfl⟩ := List.length_eq_one_iff.1 h
    rfl
  | map =>
    obtain ⟨key, value, rfl⟩ := List.length_eq_two.1 h
    rfl
  | function params result =>
    have hne : parts ≠ [] := by
      rintro rfl
      simp [children] at h
    simp [withParts, children, List.getLastD_eq_getLast?, List.getLast?_eq_getLast_of_ne_nil hne,
      List.dropLast_append_getLast]
  | named => rfl

/-- Replacing the parts of a shape is replacing them in order and putting them back. -/
theorem traverse_eq {m : Type → Type} [Monad m] [LawfulMonad m] (f : TypeId → Variance → m TypeId)
    (v : Variance) (shape : TypeShape) :
    shape.traverse f v =
      shape.withParts <$> (shape.positions v).mapM fun part => f part.1 part.2 := by
  cases shape with
  | named name args =>
    simp only [traverse, positions, List.mapM_map, bind_pure_comp, Function.comp_def]
    rfl
  | _ => simp [traverse, positions, withParts, Function.comp_def]

/-- The tree of a shape depends only on the trees of its children. -/
theorem tree_congr (h : ∀ part ∈ shape.children, f part = g part) :
    shape.tree f = shape.tree g := by
  cases shape <;> simp_all [tree, children]

/-- A shape whose parts are exchanged for parts with certain trees. -/
theorem tree_withParts (h : parts.map g = shape.children.map f) :
    (shape.withParts parts).tree g = shape.tree f := by
  cases shape with
  | primitive | param => rfl
  | list elem =>
    obtain ⟨part, rfl⟩ : ∃ part, parts = [part] :=
      List.length_eq_one_iff.1 (by simpa [children] using congrArg List.length h)
    simpa [tree, withParts, children] using h
  | option inner =>
    obtain ⟨part, rfl⟩ : ∃ part, parts = [part] :=
      List.length_eq_one_iff.1 (by simpa [children] using congrArg List.length h)
    simpa [tree, withParts, children] using h
  | map key value =>
    obtain ⟨key', value', rfl⟩ : ∃ key' value', parts = [key', value'] :=
      List.length_eq_two.1 (by simpa [children] using congrArg List.length h)
    simpa [tree, withParts, children] using h
  | function params result =>
    rcases List.eq_nil_or_concat parts with rfl | ⟨init, last, rfl⟩
    · simp [children] at h
    · simpa [tree, withParts, children, List.append_left_inj] using h
  | named name args => exact congrArg (TypeTree.named name) h

/-- The occurrences in the tree of a shape are those in its children's trees, with their variances.
-/
theorem occurrences_tree (hparam : ∀ name id, shape ≠ .param name id) (v : Variance) :
    (shape.tree f).occurrences v =
      (shape.positions v).flatMap fun part => (f part.1).occurrences part.2 := by
  cases shape with
  | param name id => exact absurd rfl (hparam name id)
  | _ => simp [tree, positions, TypeTree.occurrences, List.flatMap_map]

/-- Parameters in the tree of a shape are replaced in its children's trees. -/
theorem replace_tree (hparam : ∀ name id, shape ≠ .param name id)
    (σ : Name → Nat → Option TypeTree) :
    (shape.tree f).replace σ = shape.tree fun part => (f part).replace σ := by
  cases shape with
  | param name id => exact absurd rfl (hparam name id)
  | _ => simp [tree, TypeTree.replace]

/-- A function that tells the items of two lists apart tells the lists apart. -/
theorem map_injective_of {ts us : List TypeId} (h : ts.map f = us.map f)
    (hf : ∀ t ∈ ts, ∀ u ∈ us, f t = f u → t = u) : ts = us := by
  induction ts generalizing us with
  | nil => exact (List.map_eq_nil_iff.1 h.symm).symm
  | cons t ts ih =>
    cases us with
    | nil => cases h
    | cons u us =>
      obtain ⟨htu, hrest⟩ := List.cons.inj h
      rw [hf t (.head _) u (.head _) htu,
        ih hrest fun t ht u hu => hf t (.tail _ ht) u (.tail _ hu)]

/-- Shapes of one tree are the same if their parts are where they have the same tree. -/
theorem tree_injective (h : shape.tree f = shape'.tree f)
    (hf : ∀ t ∈ shape.children, ∀ u ∈ shape'.children, f t = f u → t = u) : shape = shape' := by
  -- the layers agree, so it is enough that the parts do
  have hparts : shape.children.map f = shape'.children.map f ∧
      shape'.withParts shape.children = shape := by
    cases shape <;> cases shape' <;> simp_all [tree, children, withParts]
  rw [← hparts.2, map_injective_of hparts.1 hf, withParts_children]

end TypeShape

/-- A shape has a parameter if it is one or one of its parts has one. -/
theorem TypeShape.facts_hasParam (shape : TypeShape) (parts : List TypeFacts) :
    (shape.facts parts).hasParam = (shape.ownFacts.hasParam || parts.any (·.hasParam)) := by
  have hfold : ∀ acc : TypeFacts,
      (parts.foldl (fun acc part => acc.union part.propagated) acc).hasParam =
        (acc.hasParam || parts.any (·.hasParam)) := by
    induction parts with
    | nil => simp
    | cons part parts ih =>
      intro acc
      rw [List.foldl_cons, ih, List.any_cons, ← Bool.or_assoc]
      rfl
  exact hfold _

namespace TypePool

variable {pool later : TypePool} {t u : TypeId}

/-- The tree of a type whose handle is below `bound`. -/
def unfoldBelow (pool : TypePool) : Nat → TypeId → TypeTree
  | 0, _ => .primitive .error
  | bound + 1, t =>
    match pool.entry t with
    | .ok e => e.shape.tree (pool.unfoldBelow bound)
    | .error _ => .primitive .error

/-- The tree that a type stands for.  The parts of a type have smaller handles than the
type itself, so its own handle bounds the depth. -/
def unfold (pool : TypePool) (t : TypeId) : TypeTree := pool.unfoldBelow (t.raw + 1) t

/-- The parts of a type of an ordered pool are in the pool. -/
theorem Ordered.has_part (h : pool.Ordered) {e : TypeEntry} (he : pool.entry t = .ok e)
    {part : TypeId} (hp : part ∈ e.shape.children) : pool.Has part :=
  Nat.lt_trans (h.part_lt he hp) (has_iff.2 ⟨e, he⟩)

/-- What holds of a type if it holds of its parts holds of all types. -/
theorem Ordered.induction (h : pool.Ordered) {motive : (t : TypeId) → pool.Has t → Prop}
    (step : ∀ t e (he : pool.entry t = .ok e),
      (∀ part (hp : part ∈ e.shape.children), motive part (h.has_part he hp)) →
        motive t (has_iff.2 ⟨e, he⟩)) (t : TypeId) (ht : pool.Has t) : motive t ht := by
  have below : ∀ bound, ∀ (t : TypeId) (ht : pool.Has t), t.raw < bound → motive t ht := by
    intro bound
    induction bound with
    | zero => intro t ht hb; omega
    | succ bound ih =>
      intro t ht hb
      obtain ⟨e, he⟩ := has_iff.1 ht
      refine step t e he fun part hp => ih part _ ?_
      have hlt := h.part_lt he hp
      omega
  exact below (t.raw + 1) t ht (Nat.lt_succ_self _)

/-- The bound does not matter, and neither does what was added to the pool. -/
theorem Extends.unfoldBelow (hl : later.Extends pool) (ho : pool.Ordered) (ht : pool.Has t) :
    ∀ bound bound', t.raw < bound → t.raw < bound' →
      later.unfoldBelow bound t = pool.unfoldBelow bound' t := by
  induction t, ht using ho.induction with
  | step t e he ih =>
    intro bound bound' hb hb'
    obtain ⟨bound, rfl⟩ := Nat.exists_eq_succ_of_ne_zero (Nat.ne_zero_of_lt hb)
    obtain ⟨bound', rfl⟩ := Nat.exists_eq_succ_of_ne_zero (Nat.ne_zero_of_lt hb')
    rw [TypePool.unfoldBelow, TypePool.unfoldBelow, hl.entry he, he]
    refine TypeShape.tree_congr fun part hp => ?_
    have hlt := ho.part_lt he hp
    exact ih part hp bound bound' (by omega) (by omega)

/-- A type stands for its layer over what its parts stand for. -/
theorem unfold_eq (ho : pool.Ordered) {e : TypeEntry} (he : pool.entry t = .ok e) :
    pool.unfold t = e.shape.tree pool.unfold := by
  rw [unfold, unfoldBelow, he]
  dsimp only
  refine TypeShape.tree_congr fun part hp => ?_
  exact (Extends.refl pool).unfoldBelow ho (ho.has_part he hp) _ _ (ho.part_lt he hp)
    (Nat.lt_succ_self _)

/-- **A type stands for the same tree in every larger pool.** -/
theorem Extends.unfold (hl : later.Extends pool) (ho : pool.Ordered) (ht : pool.Has t) :
    later.unfold t = pool.unfold t :=
  hl.unfoldBelow ho ht _ _ (Nat.lt_succ_self _) (Nat.lt_succ_self _)

/-- **Different types of a sound pool stand for different trees.** -/
theorem Sound.unfold_injective (h : pool.Sound) (ht : pool.Has t) (hu : pool.Has u)
    (htu : pool.unfold t = pool.unfold u) : t = u := by
  induction t, ht using h.ordered.induction generalizing u with
  | step t e he ih =>
    obtain ⟨e', he'⟩ := has_iff.1 hu
    rw [unfold_eq h.ordered he, unfold_eq h.ordered he'] at htu
    refine eq_of_shape he he' (TypeShape.tree_injective htu fun part hp part' hp' => ?_)
    exact ih part hp (h.ordered.has_part he' hp')

/-! ### Parameters -/

/-- The occurrences of parameters in a type that is not a parameter are those in its
parts. -/
theorem occurrences_unfold (ho : pool.Ordered) {e : TypeEntry} (he : pool.entry t = .ok e)
    (hparam : ∀ name id, e.shape ≠ .param name id) (v : Variance) :
    (pool.unfold t).occurrences v =
      (e.shape.positions v).flatMap fun part => (pool.unfold part.1).occurrences part.2 := by
  rw [unfold_eq ho he, TypeShape.occurrences_tree hparam]

/-- A type parameter unfolds to itself. -/
theorem unfold_param (ho : pool.Ordered) {e : TypeEntry} (he : pool.entry t = .ok e)
    {name : Name} {id : Nat} (hparam : e.shape = .param name id) :
    pool.unfold t = .param name id := by
  rw [unfold_eq ho he, hparam, TypeShape.tree]

/-- A parameter that occurs in a type of the pool has a handle. -/
theorem exists_find?_param (ho : pool.Ordered) (ht : pool.Has t) {v : Variance} {o : Occurrence}
    (hmem : o ∈ (pool.unfold t).occurrences v) :
    ∃ u, pool.find? (.param o.name o.id) = some u := by
  induction t, ht using ho.induction generalizing v with
  | step t e he ih =>
    by_cases hparam : ∃ name id, e.shape = .param name id
    · obtain ⟨name, id, hparam⟩ := hparam
      rw [unfold_param ho he hparam] at hmem
      obtain rfl := List.mem_singleton.1 hmem
      rw [← hparam]
      exact ⟨t, find?_of_entry he⟩
    · rw [occurrences_unfold ho he (by simpa using hparam)] at hmem
      obtain ⟨part, hpart, hmem⟩ := List.mem_flatMap.1 hmem
      refine ih part.1 ?_ hmem
      rw [← TypeShape.map_fst_positions v]
      exact List.mem_map_of_mem hpart

/-- No parameter occurs in a type that is not open. -/
theorem Sound.occurrences_eq_nil (h : pool.Sound) {e : TypeEntry} (he : pool.entry t = .ok e)
    (hopen : e.facts.isOpen = false) (v : Variance) : (pool.unfold t).occurrences v = [] := by
  induction t, has_iff.2 ⟨e, he⟩ using h.ordered.induction generalizing e v with
  | step t e' he' ih =>
    obtain rfl : e = e' := Except.ok.inj (he.symm.trans he')
    obtain ⟨parts, hparts, hfacts⟩ := h.facts t e he
    rw [TypeFacts.isOpen, hfacts, TypeShape.facts_hasParam, Bool.or_eq_false_iff,
      List.any_eq_false] at hopen
    obtain ⟨hown, hclosed⟩ := hopen
    have hparam : ∀ name id, e.shape ≠ .param name id := by
      intro name id hs
      rw [hs] at hown
      cases hown
    rw [occurrences_unfold h.ordered he hparam, List.flatMap_eq_nil_iff]
    intro part hpart
    have hchild : part.1 ∈ e.shape.children := by
      rw [← TypeShape.map_fst_positions v]
      exact List.mem_map_of_mem hpart
    obtain ⟨e', he', hentry⟩ := exists_of_mapM_entry hparts hchild
    have hfalse := hclosed e'.facts (List.mem_map_of_mem he')
    exact ih part.1 hchild hentry (by simpa [TypeFacts.isOpen] using hfalse) part.2

end TypePool

end Graft
