/-
# What is known of a type is exact

The facts of a type are found when it enters the pool, from its shape and from the facts of its
parts, and never looked at again.  They are exact (`TypePool.Sound.facts_exact`): a parameter, or
the error type, is noted if and only if it occurs somewhere in the tree of the type
(`TypeTree.Occurs`), and of the other facts just the one is noted that tells the outermost
constructor (`TypeTree.category`).
-/

import Graft.Proofs.Type.Unfold

namespace Graft

/-- What a type is, by its outermost constructor. -/
inductive TypeCategory where
  | primitive
  | param
  /-- A list, an option or a map. -/
  | container
  | function
  | named
deriving DecidableEq, Repr

/-- The categories that are noted among the facts. -/
def TypeFacts.categories (f : TypeFacts) : List TypeCategory :=
  [(f.isPrimitive, .primitive), (f.isParam, .param), (f.isContainer, .container),
    (f.isFunction, .function), (f.isNamed, .named)].filterMap fun (noted, category) =>
      if noted then some category else none

namespace TypeTree

/-- The type `x` is a type or one of those that it is made of. -/
inductive Occurs (x : TypeTree) : TypeTree → Prop
  | self : Occurs x x
  | elem {elem : TypeTree} (h : Occurs x elem) : Occurs x (.list elem)
  | inner {inner : TypeTree} (h : Occurs x inner) : Occurs x (.option inner)
  | key {key value : TypeTree} (h : Occurs x key) : Occurs x (.map key value)
  | value {key value : TypeTree} (h : Occurs x value) : Occurs x (.map key value)
  | param {params : List TypeTree} {result p : TypeTree} (hp : p ∈ params) (h : Occurs x p) :
      Occurs x (.function params result)
  | result {params : List TypeTree} {result : TypeTree} (h : Occurs x result) :
      Occurs x (.function params result)
  | arg {name : Name} {args : List TypeTree} {a : TypeTree} (ha : a ∈ args) (h : Occurs x a) :
      Occurs x (.named name args)

/-- The category of a type. -/
def category : TypeTree → TypeCategory
  | .primitive _ => .primitive
  | .param _ _ => .param
  | .list _ => .container
  | .option _ => .container
  | .map _ _ => .container
  | .function _ _ => .function
  | .named _ _ => .named

end TypeTree

/-- The facts are those of the type that the tree stands for. -/
structure TypeFacts.ExactFor (f : TypeFacts) (t : TypeTree) : Prop where
  hasParam : f.hasParam = true ↔ ∃ name id, TypeTree.Occurs (.param name id) t
  hasError : f.hasError = true ↔ TypeTree.Occurs (.primitive .error) t
  category : f.categories = [t.category]

namespace TypeShape

variable {shape : TypeShape} {f : TypeId → TypeTree}

/-- What occurs in a type is the type itself or occurs in one of its parts. -/
theorem occurs_tree {x : TypeTree} :
    TypeTree.Occurs x (shape.tree f) ↔
      x = shape.tree f ∨ ∃ part ∈ shape.children, TypeTree.Occurs x (f part) := by
  constructor
  · intro h
    cases shape with
    | primitive | param =>
      cases h
      exact .inl rfl
    | list elem =>
      cases h with
      | self => exact .inl rfl
      | elem h => exact .inr ⟨elem, .head _, h⟩
    | option inner =>
      cases h with
      | self => exact .inl rfl
      | inner h => exact .inr ⟨inner, .head _, h⟩
    | map key value =>
      cases h with
      | self => exact .inl rfl
      | key h => exact .inr ⟨_, .head _, h⟩
      | value h => exact .inr ⟨_, .tail _ (.head _), h⟩
    | function params result =>
      cases h with
      | self => exact .inl rfl
      | param hp h =>
        obtain ⟨part, hpart, rfl⟩ := List.mem_map.1 hp
        exact .inr ⟨part, List.mem_append_left _ hpart, h⟩
      | result h => exact .inr ⟨result, List.mem_append_right _ (.head _), h⟩
    | named name args =>
      cases h with
      | self => exact .inl rfl
      | arg ha h =>
        obtain ⟨part, hpart, rfl⟩ := List.mem_map.1 ha
        exact .inr ⟨part, hpart, h⟩
  · rintro (rfl | ⟨part, hp, h⟩)
    · exact .self
    · cases shape with
      | primitive | param => cases hp
      | list elem =>
        obtain rfl := List.mem_singleton.1 hp
        exact .elem h
      | option inner =>
        obtain rfl := List.mem_singleton.1 hp
        exact .inner h
      | map key value =>
        rcases List.mem_cons.1 hp with rfl | hp
        · exact .key h
        · obtain rfl := List.mem_singleton.1 hp
          exact .value h
      | function params result =>
        rcases List.mem_append.1 hp with hp | hp
        · exact .param (List.mem_map_of_mem hp) h
        · obtain rfl := List.mem_singleton.1 hp
          exact .result h
      | named name args => exact .arg (List.mem_map_of_mem hp) h

/-- The two facts that are inherited are found in the parts as well; the others are the shape's
own. -/
theorem facts_eq (shape : TypeShape) (parts : List TypeFacts) :
    shape.facts parts =
      { shape.ownFacts with
        hasParam := shape.ownFacts.hasParam || parts.any (·.hasParam)
        hasError := shape.ownFacts.hasError || parts.any (·.hasError) } := by
  have hfold : ∀ acc : TypeFacts,
      parts.foldl (fun acc part => acc.union part.propagated) acc =
        { acc with
          hasParam := acc.hasParam || parts.any (·.hasParam)
          hasError := acc.hasError || parts.any (·.hasError) } := by
    induction parts with
    | nil => simp
    | cons part parts ih =>
      intro acc
      rw [List.foldl_cons, ih]
      simp [TypeFacts.union, TypeFacts.propagated, Bool.or_assoc]
  exact hfold _

/-- A shape has a parameter of its own just when its tree is one. -/
theorem ownFacts_hasParam :
    shape.ownFacts.hasParam = true ↔ ∃ name id, .param name id = shape.tree f := by
  cases shape <;> simp [ownFacts, tree]

/-- A shape is an error of its own just when its tree is one. -/
theorem ownFacts_hasError :
    shape.ownFacts.hasError = true ↔ .primitive .error = shape.tree f := by
  cases shape with
  | primitive p => cases p <;> simp [ownFacts, tree]
  | _ => simp [ownFacts, tree]

/-- The only category a shape has of its own is that of its tree. -/
theorem categories_ownFacts : shape.ownFacts.categories = [(shape.tree f).category] := by
  cases shape <;> rfl

/-- A shape has exact facts if its parts have. -/
theorem facts_exactFor {facts : TypeId → TypeFacts}
    (h : ∀ part ∈ shape.children, (facts part).ExactFor (f part)) :
    (shape.facts (shape.children.map facts)).ExactFor (shape.tree f) := by
  have inherited : ∀ (fact : TypeFacts → Bool) (P : TypeTree → Prop),
      (∀ part ∈ shape.children, fact (facts part) = true ↔ P (f part)) →
        ((shape.children.map facts).any fact = true ↔ ∃ part ∈ shape.children, P (f part)) := by
    intro fact P hP
    rw [List.any_map, List.any_eq_true]
    exact exists_congr fun part => and_congr_right fun hp => hP part hp
  rw [facts_eq]
  refine ⟨?_, ?_, categories_ownFacts⟩
  · rw [Bool.or_eq_true, ownFacts_hasParam,
      inherited (·.hasParam) (fun t => ∃ name id, TypeTree.Occurs (.param name id) t)
        fun part hp => (h part hp).hasParam]
    simp only [occurs_tree]
    constructor
    · rintro (⟨name, id, hself⟩ | ⟨part, hp, name, id, hpart⟩)
      · exact ⟨name, id, .inl hself⟩
      · exact ⟨name, id, .inr ⟨part, hp, hpart⟩⟩
    · rintro ⟨name, id, hself | ⟨part, hp, hpart⟩⟩
      · exact .inl ⟨name, id, hself⟩
      · exact .inr ⟨part, hp, name, id, hpart⟩
  · rw [Bool.or_eq_true, ownFacts_hasError,
      inherited (·.hasError) (TypeTree.Occurs (.primitive .error))
        fun part hp => (h part hp).hasError, occurs_tree]

end TypeShape

namespace TypePool

variable {pool : TypePool} {t : TypeId} {e : TypeEntry}

/-- The facts that the pool holds for a type. -/
def factsOf (pool : TypePool) (t : TypeId) : TypeFacts :=
  match pool.entry t with
  | .ok e => e.facts
  | .error _ => {}

/-- The facts of a type are those its entry records. -/
theorem factsOf_eq (he : pool.entry t = .ok e) : pool.factsOf t = e.facts := by
  rw [factsOf, he]

/-- The facts of a type are those that its shape and its parts give. -/
theorem Sound.facts_eq (h : pool.Sound) (he : pool.entry t = .ok e) :
    e.facts = e.shape.facts (e.shape.children.map pool.factsOf) := by
  obtain ⟨parts, hparts, hfacts⟩ := h.facts t e he
  have hread : ∀ {ts : List TypeId} {es : List TypeEntry}, ts.mapM pool.entry = .ok es →
      ts.map pool.factsOf = es.map TypeEntry.facts := by
    intro ts es hes
    have hentries := mapM_entry_eq_ok.1 hes
    clear hes
    induction hentries with
    | nil => rfl
    | cons he _ ih => rw [List.map_cons, List.map_cons, factsOf_eq he, ih]
  rw [hfacts, hread hparts]

/-- **What is known of a type is exact.** -/
theorem Sound.facts_exact (h : pool.Sound) (he : pool.entry t = .ok e) :
    e.facts.ExactFor (pool.unfold t) := by
  induction t, has_iff.2 ⟨e, he⟩ using h.ordered.induction generalizing e with
  | step t e' he' ih =>
    obtain rfl : e = e' := Except.ok.inj (he.symm.trans he')
    rw [h.facts_eq he, unfold_eq h.ordered he]
    refine TypeShape.facts_exactFor fun part hp => ?_
    obtain ⟨e', hpart⟩ := has_iff.1 (h.ordered.has_part he hp)
    rw [factsOf_eq hpart]
    exact ih part hp hpart

end TypePool

end Graft
