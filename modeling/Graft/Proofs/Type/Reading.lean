/-
# How types are read

Types are written without brackets around function types, so a `?` behind one is read as part of
its result: `() -> int?` is the text of a function that may return nothing and of a function that
may not be there.  The tree that is read off a text has every such `?` at the result
(`TypeTree.asRead`).  A type is written as a phrase (`TypeTree.phrase`), and two types are written
as the same phrase just when they are read alike (`TypeTree.phrase_eq_iff`).
-/

import Graft.Name.Interner
import Graft.Proofs.Type.Phrase
import Graft.Proofs.Type.Structure

namespace Graft

/-! ### What is read -/

namespace TypeTree

/-- Whether the tree is that of a function. -/
def isFunction : TypeTree → Bool
  | .function .. => true
  | _ => false

/-- What is read if a `?` stands behind the text of a type. -/
def mark : TypeTree → TypeTree
  | .function params result => .function params (mark result)
  | t => .option t

mutual

/-- What is read off the text of a type. -/
def asRead : TypeTree → TypeTree
  | .primitive p => .primitive p
  | .param name id => .param name id
  | .list elem => .list (asRead elem)
  | .option inner => (asRead inner).mark
  | .map key value => .map (asRead key) (asRead value)
  | .function params result => .function (asReadAll params) (asRead result)
  | .named name args => .named name (asReadAll args)

/-- Several trees, each as it is read. -/
def asReadAll : List TypeTree → List TypeTree
  | [] => []
  | t :: ts => asRead t :: asReadAll ts

end

mutual

/-- Whether no function type in a type is optional. -/
def plain : TypeTree → Bool
  | .primitive _ => true
  | .param _ _ => true
  | .list elem => plain elem
  | .option inner => plain inner && !inner.isFunction
  | .map key value => plain key && plain value
  | .function params result => plainAll params && plain result
  | .named _ args => plainAll args

/-- Whether none of several trees has an option of a function in it. -/
def plainAll : List TypeTree → Bool
  | [] => true
  | t :: ts => plain t && plainAll ts

end

/-- Each of several trees is read by itself. -/
@[simp]
theorem asReadAll_eq_map (ts : List TypeTree) : asReadAll ts = ts.map asRead := by
  induction ts with
  | nil => rfl
  | cons t ts ih => rw [asReadAll, ih, List.map_cons]

/-- Several trees are plain when each of them is. -/
@[simp]
theorem plainAll_eq_all (ts : List TypeTree) : plainAll ts = ts.all plain := by
  induction ts with
  | nil => rfl
  | cons t ts ih => rw [plainAll, ih, List.all_cons]

/-- A mark after what is not a function makes an option of it. -/
theorem mark_of_not_function {t : TypeTree} (h : t.isFunction = false) : t.mark = .option t := by
  cases t with
  | function => cases h
  | _ => rfl

/-- Where no function type is optional, a type is read as it is. -/
theorem asRead_of_plain {t : TypeTree} (h : t.plain = true) : t.asRead = t := by
  induction t with
  | primitive | param => rfl
  | list elem ih => rw [asRead, ih h]
  | option inner ih =>
    obtain ⟨hinner, hnot⟩ := Bool.and_eq_true_iff.1 h
    rw [asRead, ih hinner, mark_of_not_function (Bool.not_eq_true' _ ▸ hnot)]
  | map key value ihk ihv =>
    obtain ⟨hk, hv⟩ := Bool.and_eq_true_iff.1 h
    rw [asRead, ihk hk, ihv hv]
  | function params result ihp ihr =>
    obtain ⟨hp, hr⟩ := Bool.and_eq_true_iff.1 h
    rw [plainAll_eq_all, List.all_eq_true] at hp
    rw [asRead, ihr hr, asReadAll_eq_map,
      List.map_congr_left fun p hmem => ihp p hmem (hp p hmem), List.map_id']
  | named name args ih =>
    rw [plain, plainAll_eq_all, List.all_eq_true] at h
    rw [asRead, asReadAll_eq_map, List.map_congr_left fun a hmem => ih a hmem (h a hmem),
      List.map_id']

end TypeTree

/-! ### Types and phrases -/

/-- What a word in the text of a type stands for. -/
inductive TypeWord where
  | primitive (p : Primitive)
  | param (name : Name) (id : Nat)
  /-- A class, with or without type arguments. -/
  | named (name : Name)
deriving DecidableEq, Repr

namespace TypeWord

/-- How the word is written. -/
def text (names : Interner) : TypeWord → String
  | .primitive p => p.name
  | .param name _ => names.lookup name
  | .named name => names.lookup name

/-- The characters the word is written with. -/
def spell (names : Interner) (a : TypeWord) : List Char := (a.text names).toList

/-- The name that the word is. -/
def name? : TypeWord → Option Name
  | .primitive _ => none
  | .param name _ => some name
  | .named name => some name

/-- The type that begins with the word, given its arguments. -/
def tree (args : List TypeTree) : TypeWord → TypeTree
  | .primitive p => .primitive p
  | .param name id => .param name id
  | .named name => .named name args

/-- A word without a name is a primitive type. -/
theorem exists_primitive {a : TypeWord} (h : a.name? = none) : ∃ p, a = .primitive p := by
  cases a with
  | primitive p => exact ⟨p, rfl⟩
  | param | named => cases h

/-- A word with a name is written as that name. -/
theorem text_of_name? (names : Interner) {a : TypeWord} {n : Name} (h : a.name? = some n) :
    a.text names = names.lookup n := by
  cases a <;> cases h <;> rfl

end TypeWord

namespace TypeTree

mutual

/-- How a type is written. -/
def phrase : TypeTree → Phrase TypeWord
  | .primitive .unit => .unit 0
  | .primitive p => .word (.primitive p) [] 0
  | .param name id => .word (.param name id) [] 0
  | .list elem => .list (phrase elem) 0
  | .option inner => (phrase inner).mark
  | .map key value => .map (phrase key) (phrase value) 0
  | .function params result => .function (phraseAll params) (phrase result)
  | .named name args => .word (.named name) (phraseAll args) 0

/-- The phrases of several trees. -/
def phraseAll : List TypeTree → List (Phrase TypeWord)
  | [] => []
  | t :: ts => phrase t :: phraseAll ts

end

/-- The type with some `?`s behind it. -/
def optional (t : TypeTree) : Nat → TypeTree
  | 0 => t
  | marks + 1 => .option (optional t marks)

end TypeTree

namespace Phrase

mutual

/-- The type that a phrase is read as. -/
def tree : Phrase TypeWord → TypeTree
  | .word a args marks => (a.tree (treeAll args)).optional marks
  | .unit marks => (TypeTree.primitive .unit).optional marks
  | .list elem marks => (TypeTree.list (tree elem)).optional marks
  | .map key value marks => (TypeTree.map (tree key) (tree value)).optional marks
  | .function params result => .function (treeAll params) (tree result)

/-- The trees of several phrases. -/
def treeAll : List (Phrase TypeWord) → List TypeTree
  | [] => []
  | p :: ps => tree p :: treeAll ps

end

/-- Each of several phrases has its own tree. -/
@[simp]
theorem treeAll_eq_map (ps : List (Phrase TypeWord)) : treeAll ps = ps.map tree := by
  induction ps with
  | nil => rfl
  | cons p ps ih => rw [treeAll, ih, List.map_cons]

end Phrase

namespace TypeTree

/-- Each of several trees has its own phrase. -/
@[simp]
theorem phraseAll_eq_map (ts : List TypeTree) : phraseAll ts = ts.map phrase := by
  induction ts with
  | nil => rfl
  | cons t ts ih => rw [phraseAll, ih, List.map_cons]

/-- The words of some types are those of each of them. -/
theorem mem_wordsAll_phraseAll {β : Type} {ts : List β} {f : β → TypeTree} {a : TypeWord} :
    a ∈ Phrase.wordsAll (phraseAll (ts.map f)) ↔ ∃ t ∈ ts, a ∈ (f t).phrase.words := by
  rw [phraseAll_eq_map, Phrase.wordsAll_eq_flatMap, List.mem_flatMap]
  simp

/-- One more mark makes one more option. -/
theorem mark_optional {t : TypeTree} (h : t.isFunction = false) (marks : Nat) :
    (t.optional marks).mark = t.optional (marks + 1) := by
  cases marks with
  | zero => exact mark_of_not_function h
  | succ marks => rfl

/-- A mark on the phrase is a mark on the tree. -/
theorem tree_mark (p : Phrase TypeWord) : p.mark.tree = p.tree.mark := by
  induction p with
  | word a args marks _ => cases a <;> exact (mark_optional rfl marks).symm
  | unit marks | list elem marks _ | map key value marks _ _ => exact (mark_optional rfl marks).symm
  | function params result _ ih => rw [Phrase.mark, Phrase.tree, Phrase.tree, mark, ih]

/-- A mark on the tree is a mark on the phrase. -/
theorem phrase_mark (t : TypeTree) : t.mark.phrase = t.phrase.mark := by
  induction t with
  | function params result _ ih => rw [mark, phrase, phrase, Phrase.mark, ih]
  | _ => rfl

/-- A type is read off its phrase up to the places of its `?`s. -/
theorem tree_phrase (t : TypeTree) : t.phrase.tree = t.asRead := by
  induction t with
  | primitive p => cases p <;> rfl
  | param name id => rfl
  | list elem ih => rw [phrase, Phrase.tree, ih, asRead, optional]
  | option inner ih => rw [phrase, tree_mark, ih, asRead]
  | map key value ihk ihv => rw [phrase, Phrase.tree, ihk, ihv, asRead, optional]
  | function params result ihp ihr =>
    have hparams : (params.map phrase).map Phrase.tree = params.map asRead :=
      List.map_map.trans (List.map_congr_left ihp)
    rw [phrase, Phrase.tree, asRead, ihr, phraseAll_eq_map, Phrase.treeAll_eq_map, hparams,
      asReadAll_eq_map]
  | named name args ih =>
    have hargs : (args.map phrase).map Phrase.tree = args.map asRead :=
      List.map_map.trans (List.map_congr_left ih)
    rw [phrase, Phrase.tree, asRead, phraseAll_eq_map, Phrase.treeAll_eq_map, hargs,
      asReadAll_eq_map, optional, TypeWord.tree]

/-- What is read off the text of a type is written in the same way. -/
theorem phrase_asRead (t : TypeTree) : t.asRead.phrase = t.phrase := by
  induction t with
  | primitive | param => rfl
  | list elem ih => rw [asRead, phrase, phrase, ih]
  | option inner ih => rw [asRead, phrase_mark, ih, phrase]
  | map key value ihk ihv => rw [asRead, phrase, phrase, ihk, ihv]
  | function params result ihp ihr =>
    have hparams : (params.map asRead).map phrase = params.map phrase :=
      List.map_map.trans (List.map_congr_left ihp)
    rw [asRead, phrase, phrase, ihr, asReadAll_eq_map, phraseAll_eq_map, phraseAll_eq_map, hparams]
  | named name args ih =>
    have hargs : (args.map asRead).map phrase = args.map phrase :=
      List.map_map.trans (List.map_congr_left ih)
    rw [asRead, phrase, phrase, asReadAll_eq_map, phraseAll_eq_map, phraseAll_eq_map, hargs]

/-- **Types are written in the same way if they are read alike.** -/
theorem phrase_eq_iff {t u : TypeTree} : t.phrase = u.phrase ↔ t.asRead = u.asRead := by
  constructor
  · intro h
    rw [← tree_phrase, h, tree_phrase]
  · intro h
    rw [← phrase_asRead, h, phrase_asRead]

end TypeTree

end Graft
