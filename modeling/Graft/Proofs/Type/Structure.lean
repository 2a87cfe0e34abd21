/-
# The structure of types

A type of a pool stands for a tree (`TypeTree`): the same layers, with the parts in place
of their handles.  On trees, substitution is plain: every occurrence of a parameter is
exchanged for what a map gives for it, all at once, and what is put in is not looked at
again (`TypeTree.replace`).  Each occurrence stands at a position of some variance
(`TypeTree.occurrences`), which is found by the rules of `TypeShape.traverse`.  Only what
the map gives for the occurring parameters matters (`TypeTree.replace_congr`), and to
replace twice is to replace once by the replaced (`TypeTree.replace_replace`).
-/

import Graft.Type.Shape

namespace Graft

/-- A type, taken apart completely. -/
inductive TypeTree where
  | primitive (p : Primitive)
  | param (name : Name) (id : Nat)
  | list (elem : TypeTree)
  | option (inner : TypeTree)
  | map (key value : TypeTree)
  | function (params : List TypeTree) (result : TypeTree)
  | named (name : Name) (args : List TypeTree)

/-- An occurrence of a type parameter at a position of the given variance. -/
structure Occurrence where
  name : Name
  id : Nat
  variance : Variance
deriving DecidableEq, Repr

namespace TypeTree

/-- Induction over types, with the parts that stand in lists. -/
@[induction_eliminator]
theorem induction {motive : TypeTree → Prop}
    (primitive : ∀ p, motive (.primitive p))
    (param : ∀ name id, motive (.param name id))
    (list : ∀ elem, motive elem → motive (.list elem))
    (option : ∀ inner, motive inner → motive (.option inner))
    (map : ∀ key value, motive key → motive value → motive (.map key value))
    (function : ∀ params result, (∀ p ∈ params, motive p) → motive result →
      motive (.function params result))
    (named : ∀ name args, (∀ a ∈ args, motive a) → motive (.named name args))
    (t : TypeTree) : motive t :=
  @TypeTree.rec motive (fun ts => ∀ t ∈ ts, motive t) primitive param list option map function
    named nofun (fun _ _ ht hts => List.forall_mem_cons.2 ⟨ht, hts⟩) t

mutual

/-- Exchange every occurrence of a parameter that `σ` maps. -/
def replace (σ : Name → Nat → Option TypeTree) : TypeTree → TypeTree
  | .primitive p => .primitive p
  | .param name id => (σ name id).getD (.param name id)
  | .list elem => .list (replace σ elem)
  | .option inner => .option (replace σ inner)
  | .map key value => .map (replace σ key) (replace σ value)
  | .function params result => .function (replaceAll σ params) (replace σ result)
  | .named name args => .named name (replaceAll σ args)

/-- Several trees with their parameters replaced. -/
def replaceAll (σ : Name → Nat → Option TypeTree) : List TypeTree → List TypeTree
  | [] => []
  | t :: ts => replace σ t :: replaceAll σ ts

end

mutual

/-- The occurrences of parameters in a type that stands at variance `v`, from left to
right. -/
def occurrences (v : Variance) : TypeTree → List Occurrence
  | .primitive _ => []
  | .param name id => [⟨name, id, v⟩]
  | .list elem => occurrences v elem
  | .option inner => occurrences v inner
  | .map key value => occurrences .invariant key ++ occurrences v value
  | .function params result => occurrencesAll v.flip params ++ occurrences v result
  | .named _ args => occurrencesAll .invariant args

/-- Where parameters occur in several trees. -/
def occurrencesAll (v : Variance) : List TypeTree → List Occurrence
  | [] => []
  | t :: ts => occurrences v t ++ occurrencesAll v ts

end

variable {σ τ : Name → Nat → Option TypeTree}

/-- Each of several trees has its parameters replaced by itself. -/
@[simp]
theorem replaceAll_eq_map (ts : List TypeTree) : replaceAll σ ts = ts.map (replace σ) := by
  induction ts with
  | nil => rfl
  | cons t ts ih => rw [replaceAll, ih, List.map_cons]

/-- The occurrences in several trees are those in each. -/
@[simp]
theorem occurrencesAll_eq_flatMap (v : Variance) (ts : List TypeTree) :
    occurrencesAll v ts = ts.flatMap (occurrences v) := by
  induction ts with
  | nil => rfl
  | cons t ts ih => rw [occurrencesAll, ih, List.flatMap_cons]

/-- Only the parameters that occur are replaced. -/
theorem replace_congr {t : TypeTree} {v : Variance}
    (h : ∀ o ∈ t.occurrences v, σ o.name o.id = τ o.name o.id) : t.replace σ = t.replace τ := by
  induction t generalizing v with
  | primitive p => rfl
  | param name id =>
    have hone : σ name id = τ name id := h ⟨name, id, v⟩ (.head _)
    rw [replace, replace, hone]
  | list elem ih => rw [replace, replace, ih h]
  | option inner ih => rw [replace, replace, ih h]
  | map key value ihk ihv =>
    obtain ⟨hk, hv⟩ := List.forall_mem_append.1 h
    rw [replace, replace, ihk hk, ihv hv]
  | function params result ihp ihr =>
    obtain ⟨hp, hr⟩ := List.forall_mem_append.1 h
    simp only [occurrencesAll_eq_flatMap] at hp
    have hparams : params.map (replace σ) = params.map (replace τ) :=
      List.map_congr_left fun p hm => ihp p hm fun o ho => hp o (List.mem_flatMap.2 ⟨p, hm, ho⟩)
    simp only [replace, replaceAll_eq_map, hparams, ihr hr]
  | named name args ih =>
    simp only [occurrences, occurrencesAll_eq_flatMap] at h
    have hargs : args.map (replace σ) = args.map (replace τ) :=
      List.map_congr_left fun a hm => ih a hm fun o ho => h o (List.mem_flatMap.2 ⟨a, hm, ho⟩)
    simp only [replace, replaceAll_eq_map, hargs]

/-- Where no parameter is mapped nothing is replaced. -/
theorem replace_none (t : TypeTree) : t.replace (fun _ _ => none) = t := by
  induction t with
  | primitive p => rfl
  | param name id => rfl
  | list elem ih => rw [replace, ih]
  | option inner ih => rw [replace, ih]
  | map key value ihk ihv => rw [replace, ihk, ihv]
  | function params result ihp ihr =>
    rw [replace, replaceAll_eq_map, List.map_congr_left ihp, List.map_id', ihr]
  | named name args ih => rw [replace, replaceAll_eq_map, List.map_congr_left ih, List.map_id']

/-- A type in which no mapped parameter occurs stays as it is. -/
theorem replace_eq_self {t : TypeTree} {v : Variance}
    (h : ∀ o ∈ t.occurrences v, σ o.name o.id = none) : t.replace σ = t :=
  (replace_congr h).trans t.replace_none

/-- First `σ`, then `τ`: a parameter that `σ` maps is exchanged for what its replacement
becomes under `τ`. -/
def following (σ τ : Name → Nat → Option TypeTree) : Name → Nat → Option TypeTree :=
  fun name id =>
    match σ name id with
    | some r => some (r.replace τ)
    | none => τ name id

/-- **Replacing twice is replacing once.** -/
theorem replace_replace (t : TypeTree) : (t.replace σ).replace τ = t.replace (following σ τ) := by
  induction t with
  | primitive p => rfl
  | param name id =>
    simp only [replace, following]
    cases σ name id with
    | some r => rfl
    | none => simp [replace]
  | list elem ih => rw [replace, replace, replace, ih]
  | option inner ih => rw [replace, replace, replace, ih]
  | map key value ihk ihv => rw [replace, replace, replace, ihk, ihv]
  | function params result ihp ihr =>
    have hparams : params.map (replace τ ∘ replace σ) = params.map (replace (following σ τ)) :=
      List.map_congr_left ihp
    simp only [replace, replaceAll_eq_map, List.map_map, ihr, hparams]
  | named name args ih =>
    have hargs : args.map (replace τ ∘ replace σ) = args.map (replace (following σ τ)) :=
      List.map_congr_left ih
    simp only [replace, replaceAll_eq_map, List.map_map, hargs]

end TypeTree

end Graft
