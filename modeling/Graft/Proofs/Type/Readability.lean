/-
# Which types have the same text

The text of a type is that of its phrase (`TypePool.Ordered.writes`).  If the names that types have
are legible (`TypePool.Legible`), the phrase is read off the text.  So two types have the same text
just when they are read alike (`TypePool.display_eq_iff`).
-/

import Graft.Proofs.Name.Interning
import Graft.Proofs.Type.History
import Graft.Proofs.Type.Reading

namespace Graft

/-! ### Texts -/

namespace Primitive

/-- The list of primitive types leaves none out. -/
theorem mem_all (p : Primitive) : p ∈ all := by
  cases p <;> decide

/-- Primitive types have different names. -/
theorem name_injective {p q : Primitive} (h : p.name = q.name) : p = q :=
  (by decide : ∀ p ∈ all, ∀ q ∈ all, p.name = q.name → p = q) p p.mem_all q q.mem_all h

/-- Every primitive type but the unit is written as a word. -/
theorem isWord_name {p : Primitive} (h : p ≠ .unit) : IsWord p.name.toList :=
  (by decide : ∀ p ∈ all, p ≠ .unit → IsWord p.name.toList) p p.mem_all h

end Primitive

open Phrase TypeWord in
/-- The text is defined, and it is how the type is written. -/
def Writes (names : Interner) (text : Except Unallocated String) (t : TypeTree) : Prop :=
  ∃ s, text = .ok s ∧ ∀ rest, s.toList ++ rest = t.phrase.onto (spell names) rest

namespace Writes

variable {names : Interner} {part : TypeId → Except Unallocated String} {f : TypeId → TypeTree}

/-- Types are written one after the other, with commas before them. -/
theorem tail {ts : List TypeId} (h : ∀ t ∈ ts, Writes names (part t) (f t)) :
    ∃ texts, ts.mapM part = .ok texts ∧
      ∀ rest, (texts.flatMap fun s => ',' :: ' ' :: s.toList) ++ rest =
        Phrase.tailOnto (TypeWord.spell names) (ts.map fun t => (f t).phrase) rest := by
  induction ts with
  | nil => exact ⟨[], rfl, fun rest => rfl⟩
  | cons t ts ih =>
    obtain ⟨ht, hts⟩ := List.forall_mem_cons.1 h
    obtain ⟨s, hs, htext⟩ := ht
    obtain ⟨texts, htexts, htail⟩ := ih hts
    refine ⟨s :: texts, ?_, fun rest => ?_⟩
    · rw [List.mapM_cons, hs, htexts]
      rfl
    · rw [List.map_cons, Phrase.tailOnto, ← htext, ← htail]
      simp

/-- Texts joined by commas, character by character. -/
theorem toList_intercalate (s : String) (texts : List String) :
    (", ".intercalate (s :: texts)).toList =
      s.toList ++ texts.flatMap fun t => ',' :: ' ' :: t.toList := by
  induction texts generalizing s with
  | nil => simp
  | cons t texts ih => simp [String.intercalate_cons_cons, ih]

/-- Types are written one after the other, with commas between them. -/
theorem list {ts : List TypeId} (h : ∀ t ∈ ts, Writes names (part t) (f t)) :
    ∃ texts, ts.mapM part = .ok texts ∧ ∀ rest, (", ".intercalate texts).toList ++ rest =
      Phrase.listOnto (TypeWord.spell names) (ts.map fun t => (f t).phrase) rest := by
  cases ts with
  | nil => exact ⟨[], rfl, fun rest => rfl⟩
  | cons t ts =>
    obtain ⟨ht, hts⟩ := List.forall_mem_cons.1 h
    obtain ⟨s, hs, htext⟩ := ht
    obtain ⟨texts, htexts, htail⟩ := tail hts
    refine ⟨s :: texts, ?_, fun rest => ?_⟩
    · rw [List.mapM_cons, hs, htexts]
      rfl
    · rw [toList_intercalate, List.append_assoc, htail, htext]
      rfl

end Writes

/-- A type is written as its parts are. -/
theorem TypeShape.writes_render {shape : TypeShape} {names : Interner}
    {part : TypeId → Except Unallocated String} {f : TypeId → TypeTree}
    (h : ∀ t ∈ shape.children, Writes names (part t) (f t)) :
    Writes names (shape.render names part) (shape.tree f) := by
  cases shape with
  | primitive p =>
    refine ⟨p.name, rfl, fun rest => ?_⟩
    cases p <;> rfl
  | param name id => exact ⟨names.lookup name, rfl, fun rest => rfl⟩
  | list elem =>
    obtain ⟨s, hs, htext⟩ := h elem (.head _)
    refine ⟨"[" ++ s ++ "]", ?_, fun rest => ?_⟩
    · rw [render, hs]
      rfl
    · simp [tree, TypeTree.phrase, Phrase.onto, ← htext, marked]
  | option inner =>
    obtain ⟨s, hs, htext⟩ := h inner (.head _)
    refine ⟨s ++ "?", ?_, fun rest => ?_⟩
    · rw [render, hs]
      rfl
    · simp [tree, TypeTree.phrase, Phrase.onto_mark, ← htext]
  | map key value =>
    obtain ⟨s, hs, htext⟩ := h key (.head _)
    obtain ⟨s', hs', htext'⟩ := h value (.tail _ (.head _))
    refine ⟨"\x7b" ++ s ++ ": " ++ s' ++ "\x7d", ?_, fun rest => ?_⟩
    · rw [render, hs, hs']
      rfl
    · simp [tree, TypeTree.phrase, Phrase.onto, ← htext, ← htext', marked]
  | function params result =>
    obtain ⟨texts, htexts, htext⟩ := Writes.list fun p hp => h p (List.mem_append_left _ hp)
    obtain ⟨s, hs, htext'⟩ := h result (List.mem_append_right _ (.head _))
    refine ⟨"(" ++ ", ".intercalate texts ++ ") -> " ++ s, ?_, fun rest => ?_⟩
    · rw [render, htexts, hs]
      rfl
    · simp [tree, TypeTree.phrase, Phrase.onto, ← htext, ← htext', Function.comp_def]
  | named name args =>
    cases args with
    | nil => exact ⟨names.lookup name, rfl, fun rest => rfl⟩
    | cons a args =>
      have hargs : ∀ t ∈ a :: args, Writes names (part t) (f t) := h
      obtain ⟨texts, htexts, htext⟩ := Writes.list hargs
      refine ⟨names.lookup name ++ "[" ++ ", ".intercalate texts ++ "]", ?_, fun rest => ?_⟩
      · simp only [render, htexts]
        rfl
      · have hlist := htext (']' :: rest)
        rw [List.map_cons] at hlist
        simp [tree, TypeTree.phrase, Phrase.onto, marked, TypeWord.spell, TypeWord.text,
          Function.comp_def, ← hlist]

/-- The word that the text of a type begins with, if it begins with one. -/
def TypeShape.word? : TypeShape → Option TypeWord
  | .primitive .unit => none
  | .primitive p => some (.primitive p)
  | .param name id => some (.param name id)
  | .named name _ => some (.named name)
  | .list _ => none
  | .option _ => none
  | .map _ _ => none
  | .function _ _ => none

/-- The words of a type are its own and those of its parts. -/
theorem TypeShape.words_tree {shape : TypeShape} {f : TypeId → TypeTree} {a : TypeWord}
    (ha : a ∈ (shape.tree f).phrase.words) :
    shape.word? = some a ∨ ∃ part ∈ shape.children, a ∈ (f part).phrase.words := by
  cases shape with
  | primitive p =>
    cases p with
    | unit => cases ha
    | _ => exact .inl (congrArg some (List.mem_singleton.1 ha).symm)
  | param name id => exact .inl (congrArg some (List.mem_singleton.1 ha).symm)
  | list elem => exact .inr ⟨elem, .head _, ha⟩
  | option inner =>
    refine .inr ⟨inner, .head _, ?_⟩
    rwa [tree, TypeTree.phrase, Phrase.words_mark] at ha
  | map key value =>
    rcases List.mem_append.1 ha with ha | ha
    · exact .inr ⟨key, .head _, ha⟩
    · exact .inr ⟨value, .tail _ (.head _), ha⟩
  | function params result =>
    rcases List.mem_append.1 ha with ha | ha
    · obtain ⟨p, hp, ha⟩ := TypeTree.mem_wordsAll_phraseAll.1 ha
      exact .inr ⟨p, List.mem_append_left _ hp, ha⟩
    · exact .inr ⟨result, List.mem_append_right _ (.head _), ha⟩
  | named name args =>
    rcases List.mem_cons.1 ha with rfl | ha
    · exact .inl rfl
    · exact .inr (TypeTree.mem_wordsAll_phraseAll.1 ha)

namespace TypePool

variable {pool : TypePool} {names : Interner} {t u : TypeId}

/-- The words that are used to write the types of a pool. -/
def words (pool : TypePool) : List TypeWord := pool.shapes.toList.filterMap TypeShape.word?

/-- **Every type of an ordered pool is written as its phrase says.** -/
theorem Ordered.writes (ho : pool.Ordered) (names : Interner) (ht : pool.Has t) :
    Writes names (pool.display names t) (pool.unfold t) := by
  have hbelow : ∀ bound, t.raw < bound →
      Writes names (pool.displayBelow names bound t) (pool.unfoldBelow bound t) := by
    induction t, ht using ho.induction with
    | step t e he ih =>
      intro bound hb
      obtain ⟨bound, rfl⟩ := Nat.exists_eq_succ_of_ne_zero (Nat.ne_zero_of_lt hb)
      rw [displayBelow, unfoldBelow, he]
      refine TypeShape.writes_render fun part hp => ih part hp bound ?_
      have hlt := ho.part_lt he hp
      omega
  exact hbelow _ (Nat.lt_succ_self _)

/-- The words a type of an ordered pool is written with are words of that pool. -/
theorem Ordered.words_unfold (ho : pool.Ordered) (ht : pool.Has t) :
    ∀ a ∈ (pool.unfold t).phrase.words, a ∈ pool.words := by
  induction t, ht using ho.induction with
  | step t e he ih =>
    intro a ha
    have hmem : e.shape ∈ pool.shapes := Array.mem_of_getElem? (entry_eq_ok.1 he).1
    rw [unfold_eq ho he] at ha
    rcases TypeShape.words_tree ha with hword | ⟨part, hp, ha⟩
    · exact List.mem_filterMap.2 ⟨_, Array.mem_toList_iff.2 hmem, hword⟩
    · exact ih part hp a ha

/-- The names of the types in a pool can be read in their texts. -/
structure Legible (pool : TypePool) (names : Interner) : Prop where
  /-- Names are not empty and have no punctuation in them. -/
  isWord : ∀ a ∈ pool.words, ∀ n ∈ a.name?, IsWord (names.lookup n).toList
  /-- No name is spelled like a primitive type. -/
  primitive : ∀ a ∈ pool.words, ∀ n ∈ a.name?, ∀ p ∈ Primitive.all, names.lookup n ≠ p.name
  /-- No two type parameters share a name, and none shares its name with a class. -/
  apart : ∀ a ∈ pool.words, ∀ b ∈ pool.words, ∀ n ∈ a.name?, n ∈ b.name? → a = b

instance (pool : TypePool) (names : Interner) : Decidable (pool.Legible names) :=
  decidable_of_iff
    ((∀ a ∈ pool.words, ∀ n ∈ a.name?, IsWord (names.lookup n).toList) ∧
      (∀ a ∈ pool.words, ∀ n ∈ a.name?, ∀ p ∈ Primitive.all, names.lookup n ≠ p.name) ∧
      ∀ a ∈ pool.words, ∀ b ∈ pool.words, ∀ n ∈ a.name?, n ∈ b.name? → a = b)
    ⟨fun h => ⟨h.1, h.2.1, h.2.2⟩, fun h => ⟨h.isWord, h.primitive, h.apart⟩⟩

/-- The unit is not among the words of a pool. -/
theorem primitive_unit_not_mem : .primitive .unit ∉ pool.words := by
  intro hmem
  obtain ⟨shape, -, hword⟩ := List.mem_filterMap.1 hmem
  cases shape with
  | primitive p => cases p <;> simp [TypeShape.word?] at hword
  | _ => simp [TypeShape.word?] at hword

/-- Legible names are told apart from each other and from the primitive types. -/
theorem Legible.spelled (hl : pool.Legible names) :
    Phrase.Spelled (TypeWord.spell names) (· ∈ pool.words) where
  isWord a ha := by
    cases hname : a.name? with
    | none =>
      obtain ⟨p, rfl⟩ := TypeWord.exists_primitive hname
      refine Primitive.isWord_name ?_
      rintro rfl
      exact primitive_unit_not_mem ha
    | some n =>
      rw [TypeWord.spell, TypeWord.text_of_name? names hname]
      exact hl.isWord a ha n hname
  injective a b ha hb h := by
    have htext : a.text names = b.text names := String.toList_injective h
    cases hm : a.name? with
    | none =>
      obtain ⟨p, rfl⟩ := TypeWord.exists_primitive hm
      cases hn : b.name? with
      | none =>
        obtain ⟨q, rfl⟩ := TypeWord.exists_primitive hn
        exact congrArg _ (Primitive.name_injective htext)
      | some n =>
        rw [TypeWord.text_of_name? names hn] at htext
        exact absurd htext.symm (hl.primitive b hb n hn p p.mem_all)
    | some m =>
      rw [TypeWord.text_of_name? names hm] at htext
      cases hn : b.name? with
      | none =>
        obtain ⟨q, rfl⟩ := TypeWord.exists_primitive hn
        exact absurd htext (hl.primitive a ha m hm q q.mem_all)
      | some n =>
        rw [TypeWord.text_of_name? names hn] at htext
        -- names that are spelled alike are the same
        have hne : names.lookup n ≠ "" := fun hempty =>
          (hl.isWord b hb n hn).1 (by rw [hempty]; rfl)
        obtain rfl := Interner.eq_of_lookup htext hne
        exact hl.apart a ha b hb m hm hn

/-- **Which types have the same text.**  Take any pool that calls have made, with legible names.
Its types have a text, and two of them have the same text just when they are read alike, that is,
when they are the same after every `?` behind a function type was moved to its result.  So where no
function type is optional, different types have different texts. -/
theorem display_eq_iff (calls : List PoolCall) (hl : (after {} calls).Legible names)
    (ht : (after {} calls).Has t) (hu : (after {} calls).Has u) :
    ∃ s s', (after {} calls).display names t = .ok s ∧
      (after {} calls).display names u = .ok s' ∧
      (s = s' ↔ ((after {} calls).unfold t).asRead = ((after {} calls).unfold u).asRead) ∧
      (((after {} calls).unfold t).plain = true → ((after {} calls).unfold u).plain = true →
        s = s' → t = u) := by
  have hsound := after_sound calls
  have ho := hsound.ordered
  obtain ⟨s, hs, htext⟩ := ho.writes names ht
  obtain ⟨s', hs', htext'⟩ := ho.writes names hu
  have hspelled := hl.spelled
  have hread : s = s' ↔
      ((after {} calls).unfold t).asRead = ((after {} calls).unfold u).asRead := by
    rw [← TypeTree.phrase_eq_iff, ← String.toList_inj, ← List.append_nil s.toList,
      ← List.append_nil s'.toList, htext, htext']
    constructor
    · exact Phrase.onto_injective hspelled (ho.words_unfold ht) (ho.words_unfold hu)
    · exact fun h => by rw [h]
  refine ⟨s, s', hs, hs', hread, fun hplain hplain' heq => hsound.unfold_injective ht hu ?_⟩
  rw [← TypeTree.asRead_of_plain hplain, hread.1 heq, TypeTree.asRead_of_plain hplain']

/-- The calls that make `T`, `[T]`, `(T) -> [T]`, `Box[(T) -> [T]]` and `Box[(T) -> [T]]?`. -/
def boxCalls : List PoolCall :=
  [.typeParam ⟨1⟩, .intern (.list ⟨9⟩), .intern (.function [⟨9⟩] ⟨10⟩), .intern (.named ⟨2⟩ [⟨11⟩]),
    .intern (.option ⟨12⟩)]

/-- The names `T` and `Box`. -/
def boxNames : Interner := Interner.start.internAll ["T", "Box"]

/-- `Box[(T) -> [T]]` and `Box[(T) -> [T]]?` have different texts. -/
theorem display_eq_iff_sample :
    ∃ s s', (after {} boxCalls).display boxNames ⟨12⟩ = .ok s ∧
      (after {} boxCalls).display boxNames ⟨13⟩ = .ok s' ∧ s ≠ s' := by
  have hlegible : (after {} boxCalls).Legible boxNames := by decide +kernel
  obtain ⟨s, s', hs, hs', -, hsame⟩ := display_eq_iff boxCalls hlegible (t := ⟨12⟩) (u := ⟨13⟩)
    (by decide +kernel) (by decide +kernel)
  refine ⟨s, s', hs, hs', fun heq => ?_⟩
  have hone : (⟨12⟩ : TypeId) = ⟨13⟩ := hsame (by decide +kernel) (by decide +kernel) heq
  exact absurd hone (by decide)

example : (after {} boxCalls).display boxNames ⟨13⟩ = .ok "Box[(T) -> [T]]?" := by decide +kernel

/-- The calls that make `() -> int` and the type that may be such a function, and then `int?` and
the functions that give it. -/
def arrowCalls : List PoolCall :=
  [.intern (.function [] (.ofPrimitive .int)), .intern (.option ⟨9⟩),
    .intern (.option (.ofPrimitive .int)), .intern (.function [] ⟨11⟩)]

/-- **Different types can have the same text,** even if names are made of letters, digits and
underscores: `() -> int?` is the text of two types. -/
theorem display_ambiguous :
    ¬ ∀ (calls : List PoolCall) (names : Interner) (t u : TypeId), names.Reachable →
      (after {} calls).Legible names →
      (∀ a ∈ (after {} calls).words, ∀ n ∈ a.name?,
        (names.lookup n).toList.all fun c => c.isAlphanum || c == '_') →
      (after {} calls).Has t → (after {} calls).Has u →
      (after {} calls).display names t = (after {} calls).display names u → t = u := by
  intro hall
  have hsame : (after {} arrowCalls).display {} ⟨10⟩ = (after {} arrowCalls).display {} ⟨12⟩ := by
    decide +kernel
  have heq := hall arrowCalls {} ⟨10⟩ ⟨12⟩ .start (by decide +kernel) (by decide +kernel)
    (by decide +kernel) (by decide +kernel) hsame
  exact absurd heq (by decide)

end TypePool

end Graft
