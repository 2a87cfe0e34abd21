/-
# Interners that can be reached

An interner keeps its strings and their index in step, so it has no string twice, and a name is
determined by what it stands for (`Interner.eq_of_lookup`).  It starts with the empty string, and
from then on only strings that it does not have are added (`Interner.Reachable`): the strings of
the interners that can be reached are the lists of different strings that begin with the empty one
and for which there are names (`Interner.reachable_iff`).
-/

import Graft.Proofs.Name.Drawing
import Mathlib.Data.List.Induction
import Mathlib.Data.List.Nodup

namespace Graft

namespace Interner

variable {names names' : Interner} {m n : Name} {text : String}

/-- The interner was made by interning strings, one after the other. -/
inductive Reachable : Interner → Prop
  | start : Reachable {}
  | intern {names names' : Interner} {text : String} {n : Name} (h : Reachable names)
      (hi : names.intern text = .ok (n, names')) : Reachable names'

/-- What is not found is not there. -/
theorem find?_eq_none_iff : names.find? text = none ↔ text ∉ names.strings.toList := by
  rw [List.mem_iff_getElem?]
  constructor
  · rintro hnone ⟨i, hi⟩
    have hmeans : names.Means ⟨i⟩ text := Array.getElem?_toList.symm.trans hi
    exact nomatch hnone.symm.trans (find?_eq_some_iff.2 hmeans)
  · intro hout
    refine Option.eq_none_iff_forall_ne_some.2 fun n hn => hout ⟨n.raw, ?_⟩
    exact Array.getElem?_toList.trans (find?_eq_some_iff.1 hn)

/-- Different strings, the empty one first, can be interned from the first to the last. -/
theorem exists_reachable {strings : List String} (hnodup : strings.Nodup)
    (hhead : strings.head? = some "") (hsize : strings.length ≤ maxName + 1) :
    ∃ names : Interner, names.Reachable ∧ names.strings.toList = strings := by
  induction strings using List.reverseRecOn with
  | nil => cases hhead
  | append_singleton strings text ih =>
    cases strings with
    | nil =>
      obtain rfl : text = "" := Option.some.inj hhead
      exact ⟨_, .start, rfl⟩
    | cons first strings =>
      obtain ⟨hbefore, -, hnew⟩ := List.nodup_append.1 hnodup
      rw [List.length_append, List.length_singleton] at hsize
      obtain ⟨names, hnames, hstrings⟩ := ih hbefore hhead (Nat.le_of_succ_le hsize)
      have hnone : names.find? text = none := find?_eq_none_iff.2 fun hmem =>
        hnew text (hstrings ▸ hmem) text (.head _) rfl
      have hroom : names.strings.size ≤ maxName := by
        rw [← Array.length_toList, hstrings]
        exact Nat.le_of_succ_le_succ hsize
      have hi := intern_of_new hnone
      rw [if_pos hroom] at hi
      refine ⟨_, hnames.intern hi, ?_⟩
      exact (Array.toList_push ..).trans (congrArg (· ++ [text]) hstrings)

/-- **Which interners can be reached:** those that begin with the empty string, have no string
twice and are not too large. -/
theorem reachable_iff :
    names.Reachable ↔ names.strings.toList.Nodup ∧ names.strings.toList.head? = some "" ∧
      names.strings.size ≤ maxName + 1 := by
  constructor
  · intro h
    induction h with
    | start => exact ⟨List.nodup_singleton _, rfl, by decide⟩
    | @intern names names' text n h hi ih =>
      obtain ⟨hnodup, hhead, hsize⟩ := ih
      rcases intern_cases hi with ⟨-, rfl⟩ | ⟨hnone, hroom, -, rfl⟩
      · exact ⟨hnodup, hhead, hsize⟩
      · rw [push, Array.toList_push, Array.size_push]
        refine ⟨List.nodup_append.2 ⟨hnodup, List.nodup_singleton _, ?_⟩, ?_, by omega⟩
        · rintro s hs t ht rfl
          obtain rfl := List.mem_singleton.1 ht
          exact find?_eq_none_iff.1 hnone hs
        · rw [List.head?_append, hhead, Option.some_or]
  · rintro ⟨hnodup, hhead, hsize⟩
    obtain ⟨names', hnames', hstrings⟩ := exists_reachable hnodup hhead (by simpa using hsize)
    rwa [ext (Array.toList_inj.1 hstrings)] at hnames'

/-- **A name is determined by its text,** unless this is empty: unknown names have the empty text,
too. -/
theorem eq_of_lookup (hmn : names.lookup m = names.lookup n) (htext : names.lookup n ≠ "") :
    m = n := by
  have hmeans : ∀ i : Name, names.lookup i = names.lookup n → names.Means i (names.lookup n) := by
    intro i hi
    rw [← hi] at htext ⊢
    rw [Means, lookup]
    rw [lookup] at htext
    cases hs : names.strings[i.raw]? with
    | none => exact absurd (congrArg (Option.getD · "") hs) htext
    | some s => rfl
  exact (hmeans m hmn).name_eq (hmeans n rfl)

end Interner

/-- Generated names are not empty. -/
theorem NameScheme.text_ne_empty (scheme : NameScheme) (base : String) (n : Nat) :
    scheme.text base n ≠ "" := by
  simp [text, String.append_eq_empty_iff]

end Graft
