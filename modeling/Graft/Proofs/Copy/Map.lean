/-
# The laws of a copy map

A copy map has a hash map for every kind of symbol, but it is one map of all symbols: it is read as
the copy that a symbol has (`CopyMap.copyOf?`), as the list of the symbols that have one
(`CopyMap.keys`), and, extended by the identity, as a map of all symbols (`CopyMap.image`).
-/

import Graft.Copy.Map
import Mathlib.Data.List.Nodup

namespace Graft

namespace Symbol

variable {a b : Symbol}

/-- The order of symbols is that of their kinds, and within a kind that of their indices. -/
theorem before_iff :
    a.before b = true ↔ a.kind.rank < b.kind.rank ∨ a.kind = b.kind ∧ a.index < b.index := by
  simp [before]

/-- No symbol comes before itself. -/
theorem not_before_self (a : Symbol) : ¬ a.before a = true := by
  rw [before_iff]
  rintro (h | ⟨-, h⟩) <;> exact Nat.lt_irrefl _ h

end Symbol

namespace CopyMap

variable {k : Kind} {map map' : CopyMap}

/-- The copy of a symbol of any kind. -/
def copyOf? (map : CopyMap) (a : Symbol) : Option Symbol :=
  (map.get? (⟨a.index⟩ : SymbolId a.kind)).map SymbolId.symbol

/-- The copy of a handle's symbol is the copy of the handle. -/
theorem copyOf?_symbol (map : CopyMap) (id : SymbolId k) :
    map.copyOf? id.symbol = (map.get? id).map SymbolId.symbol := rfl

/-- A copy is of the kind of what it copies. -/
theorem kind_of_copyOf? {a c : Symbol} (h : map.copyOf? a = some c) :
    c.kind = a.kind := by
  obtain ⟨i, -, rfl⟩ := Option.map_eq_some_iff.1 h
  rfl

/-- What has a copy is not a type parameter. -/
theorem kind_ne_of_copyOf? {a c : Symbol} (h : map.copyOf? a = some c) : a.kind ≠ .typeParam := by
  obtain ⟨k, i⟩ := a
  rintro rfl
  cases h

/-- A handle that has a copy has one as a symbol. -/
theorem copyOf?_of_get? {id copy : SymbolId k} (h : map.get? id = some copy) :
    map.copyOf? id.symbol = some copy.symbol := by
  rw [copyOf?_symbol, h, Option.map_some]

/-- Whether a handle has a copy can be seen from its symbol. -/
theorem contains_symbol (map : CopyMap) (id : SymbolId k) :
    map.contains id = (map.copyOf? id.symbol).isSome :=
  (Option.isSome_map ..).symm

/-- Before anything is recorded, no symbol has a copy. -/
theorem copyOf?_empty (a : Symbol) : ({} : CopyMap).copyOf? a = none := by
  obtain ⟨k, i⟩ := a
  cases k <;> rfl

/-- Before anything is recorded, nothing is a copy. -/
theorem copyOf?_empty_ne {a c : Symbol} : ({} : CopyMap).copyOf? a ≠ some c := by
  rw [copyOf?_empty]
  nofun

/-- The arms of `isCopied` ask for the copies of the kind that they are about. -/
theorem isCopied_eq (map : CopyMap) (a : Symbol) : map.isCopied a = (map.copyOf? a).isSome := by
  obtain ⟨k, i⟩ := a
  cases k with
  | typeParam => rfl
  | cls | fn | ctor | var | param => exact map.contains_symbol _

/-! ### Recording a copy -/

/-- A copy is recorded if the symbol had none, in the slot of its kind. -/
theorem insert_eq_ok [k.Copied] {id copy : SymbolId k} (h : map.insert id copy = .ok map') :
    map.get? id = none ∧ map' = map.withSlot k ((map.slot k).insert id copy) := by
  unfold insert at h
  split at h
  · cases h
  · rename_i hnot
    exact ⟨Option.not_isSome_iff_eq_none.1 hnot, (Except.ok.inj h).symm⟩

/-- Recording a copy gives the symbol that copy and leaves all others as they were, those of other
kinds included. -/
theorem copyOf?_insert [k.Copied] {id copy : SymbolId k}
    (h : map.insert id copy = .ok map') (a : Symbol) :
    map'.copyOf? a = if a = id.symbol then some copy.symbol else map.copyOf? a := by
  obtain ⟨-, rfl⟩ := insert_eq_ok h
  obtain ⟨l, i⟩ := a
  by_cases hkind : l = k
  · subst hkind
    have hsymbol : (⟨l, i⟩ : Symbol) = id.symbol ↔ (⟨i⟩ : SymbolId l) = id :=
      ⟨fun h => congrArg SymbolId.mk (Symbol.mk.inj h).2, fun h => h ▸ rfl⟩
    rw [copyOf?, get?, slot_withSlot_self, Dict.get?_insert]
    simp only [hsymbol]
    split <;> rfl
  · rw [copyOf?, get?, slot_withSlot_of_ne hkind, if_neg fun h => hkind (congrArg Symbol.kind h)]
    rfl

/-- A symbol that is recorded had no copy. -/
theorem copyOf?_of_insert [k.Copied] {id copy : SymbolId k}
    (h : map.insert id copy = .ok map') : map.copyOf? id.symbol = none := by
  rw [copyOf?_symbol, (insert_eq_ok h).1, Option.map_none]

/-- The number of copies is counted kind by kind. -/
theorem size_eq_sum (map : CopyMap) :
    map.size = (map.slot .cls).size + (map.slot .fn).size + (map.slot .ctor).size +
      (map.slot .var).size + (map.slot .param).size := rfl

/-- Recording a copy makes the map one larger. -/
theorem size_insert [hk : k.Copied] {id copy : SymbolId k}
    (h : map.insert id copy = .ok map') : map'.size = map.size + 1 := by
  obtain ⟨hnew, rfl⟩ := insert_eq_ok h
  have hslot : ((map.slot k).insert id copy).size = (map.slot k).size + 1 := Dict.size_insert hnew _
  cases k with
  | typeParam => exact absurd rfl hk.ne_typeParam
  | cls | fn | ctor | var | param =>
    rw [size_eq_sum, size_eq_sum, slot_withSlot_self, hslot]
    simp only [slot_withSlot_of_ne, ne_eq, reduceCtorEq, not_false_eq_true]
    omega

/-! ### The symbols that have a copy -/

/-- The symbols that have a copy, in their order. -/
def keys (map : CopyMap) : List Symbol := map.pairs.map (·.1)

/-- The pairs of one kind are the symbols of this kind with their copies. -/
theorem mem_pairsOf {a c : Symbol} :
    (a, c) ∈ map.pairsOf k ↔ a.kind = k ∧ map.copyOf? a = some c := by
  rw [pairsOf, List.mem_map]
  constructor
  · rintro ⟨⟨id, copy⟩, hmem, heq⟩
    obtain ⟨rfl, rfl⟩ := Prod.mk.inj heq
    exact ⟨rfl, copyOf?_of_get? (Dict.mem_toSorted.1 hmem)⟩
  · rintro ⟨rfl, hc⟩
    obtain ⟨copy, hget, rfl⟩ := Option.map_eq_some_iff.1 hc
    exact ⟨(⟨a.index⟩, copy), Dict.mem_toSorted.2 hget, rfl⟩

/-- The map lists each symbol with its copy. -/
theorem mem_pairs {a c : Symbol} : (a, c) ∈ map.pairs ↔ map.copyOf? a = some c := by
  simp only [pairs, List.mem_append, mem_pairsOf]
  constructor
  · rintro ((((h | h) | h) | h) | h) <;> exact h.2
  · intro h
    obtain ⟨k, i⟩ := a
    cases k with
    | typeParam => cases h
    | cls | fn | ctor | var | param => simp [h]

/-- The pairs of one kind are sorted by the index of what was copied. -/
theorem pairsOf_sorted (map : CopyMap) (k : Kind) :
    (map.pairsOf k).Pairwise fun p q => p.1.before q.1 = true := by
  rw [pairsOf, List.pairwise_map]
  refine ((map.slot k).toSorted_pairwise SymbolId.index_injective).imp fun {a b} hlt => ?_
  exact Symbol.before_iff.2 (.inr ⟨rfl, hlt⟩)

/-- Pairs of a kind that comes earlier come before those of later kinds. -/
theorem before_of_rank_lt {l : Kind} (h : k.rank < l.rank) :
    ∀ p ∈ map.pairsOf k, ∀ q ∈ map.pairsOf l, p.1.before q.1 = true := by
  rintro ⟨a, c⟩ hp ⟨b, d⟩ hq
  obtain ⟨rfl, -⟩ := mem_pairsOf.1 hp
  obtain ⟨rfl, -⟩ := mem_pairsOf.1 hq
  exact Symbol.before_iff.2 (.inl h)

/-- **The pairs are in the order of the symbols that were copied.** -/
theorem pairs_sorted (map : CopyMap) :
    map.pairs.Pairwise fun p q => p.1.before q.1 = true := by
  simp only [pairs, List.pairwise_append, pairsOf_sorted, List.mem_append, true_and]
  refine ⟨⟨⟨?_, ?_⟩, ?_⟩, ?_⟩
  · exact before_of_rank_lt (by decide)
  · rintro p (hp | hp) <;> exact before_of_rank_lt (by decide) p hp
  · rintro p ((hp | hp) | hp) <;> exact before_of_rank_lt (by decide) p hp
  · rintro p (((hp | hp) | hp) | hp) <;> exact before_of_rank_lt (by decide) p hp

/-- The map has as many pairs as it counts. -/
theorem length_pairs (map : CopyMap) : map.pairs.length = map.size := by
  simp only [pairs, pairsOf, List.length_append, List.length_map, Dict.length_toSorted,
    size_eq_sum]

/-- No symbol is listed twice. -/
theorem keys_nodup (map : CopyMap) : map.keys.Nodup := by
  refine List.pairwise_map.2 (map.pairs_sorted.imp fun {p q} hbefore heq => ?_)
  exact p.1.not_before_self (heq ▸ hbefore)

/-- The keys are the symbols that have a copy. -/
theorem mem_keys {a : Symbol} : a ∈ map.keys ↔ ∃ c, map.copyOf? a = some c := by
  rw [keys, List.mem_map]
  constructor
  · rintro ⟨⟨a, c⟩, hmem, rfl⟩
    exact ⟨c, mem_pairs.1 hmem⟩
  · rintro ⟨c, hc⟩
    exact ⟨(a, c), mem_pairs.2 hc, rfl⟩

/-- Before anything is recorded, no symbol is a key. -/
theorem not_mem_keys_empty (a : Symbol) : a ∉ ({} : CopyMap).keys := by
  rw [mem_keys]
  rintro ⟨c, hc⟩
  exact copyOf?_empty_ne hc

/-- Just the symbols that are not keys have no copy. -/
theorem copyOf?_eq_none_iff {a : Symbol} : map.copyOf? a = none ↔ a ∉ map.keys := by
  rw [mem_keys, ← Option.ne_none_iff_exists', Ne, Decidable.not_not]

/-- Recording a copy lists its symbol. -/
theorem keys_insert [k.Copied] {id copy : SymbolId k}
    (h : map.insert id copy = .ok map') : map'.keys.Perm (id.symbol :: map.keys) := by
  have hnew : id.symbol ∉ map.keys := copyOf?_eq_none_iff.1 (copyOf?_of_insert h)
  refine (List.perm_ext_iff_of_nodup map'.keys_nodup
    (List.nodup_cons.2 ⟨hnew, map.keys_nodup⟩)).2 fun a => ?_
  rw [mem_keys, List.mem_cons, mem_keys]
  simp only [copyOf?_insert h]
  split
  · rename_i ha
    exact iff_of_true ⟨_, rfl⟩ (.inl ha)
  · rename_i ha
    exact (or_iff_right ha).symm

/-- The copies, in the order of the symbols that they copy. -/
def copies (map : CopyMap) : List Symbol := map.pairs.map (·.2)

/-- The copies are what the symbols are copied to. -/
theorem mem_copies {c : Symbol} : c ∈ map.copies ↔ ∃ a, map.copyOf? a = some c := by
  constructor
  · intro hc
    obtain ⟨⟨a, c⟩, hac, rfl⟩ := List.mem_map.1 hc
    exact ⟨a, mem_pairs.1 hac⟩
  · rintro ⟨a, hac⟩
    exact List.mem_map.2 ⟨(a, c), mem_pairs.2 hac, rfl⟩

/-- Where no symbol is the copy of two, no copy is listed twice. -/
theorem nodup_copies
    (hi : ∀ a b c, map.copyOf? a = some c → map.copyOf? b = some c → a = b) :
    map.copies.Nodup := by
  have hpairs : map.pairs.Nodup := List.Nodup.of_map Prod.fst map.keys_nodup
  refine hpairs.map_on ?_
  rintro ⟨a, c⟩ ha ⟨b, _⟩ hb rfl
  rw [hi a b c (mem_pairs.1 ha) (mem_pairs.1 hb)]

/-- Just the handles that are not keys have no copy. -/
theorem get?_eq_none_iff {id : SymbolId k} : map.get? id = none ↔ id.symbol ∉ map.keys := by
  rw [← copyOf?_eq_none_iff, copyOf?_symbol, Option.map_eq_none_iff]

/-- A handle with a copy is a key. -/
theorem mem_keys_of_get? {id copy : SymbolId k} (h : map.get? id = some copy) :
    id.symbol ∈ map.keys := mem_keys.2 ⟨_, copyOf?_of_get? h⟩

/-- The symbols that the map contains are its keys. -/
theorem contains_iff {id : SymbolId k} : map.contains id = true ↔ id.symbol ∈ map.keys := by
  rw [contains_symbol, mem_keys, Option.isSome_iff_exists]

/-- The originals are the keys. -/
theorem isCopied_iff {a : Symbol} : map.isCopied a = true ↔ a ∈ map.keys := by
  rw [isCopied_eq, mem_keys, Option.isSome_iff_exists]

/-! ### The map of all symbols -/

/-- The copy of a symbol of any kind, or the symbol itself if it was not copied. -/
def image (map : CopyMap) (a : Symbol) : Symbol := (map.copyOf? a).getD a

/-- The image of a handle's symbol is what the handle is redirected to. -/
theorem image_symbol (map : CopyMap) (id : SymbolId k) :
    map.image id.symbol = (map.redirect id).symbol := by
  rw [image, copyOf?_symbol, redirect]
  cases map.get? id <;> rfl

/-- The image of a callable's symbol is its copy, or else itself. -/
theorem image_callable (map : CopyMap) (callable : Callable) :
    map.image callable.symbol = ((map.callable? callable).getD callable).symbol := by
  cases callable with
  | fn id | ctor id =>
    rw [Callable.symbol, image_symbol, callable?, redirect]
    cases map.get? id <;> rfl

/-- The image of a readable's symbol is its copy, or else itself. -/
theorem image_readable (map : CopyMap) (readable : Readable) :
    map.image readable.symbol = ((map.readable? readable).getD readable).symbol := by
  cases readable with
  | var id | param id =>
    rw [Readable.symbol, image_symbol, readable?, redirect]
    cases map.get? id <;> rfl

/-- The image of a symbol that has a copy is the copy. -/
theorem image_of_copyOf? {a c : Symbol} (h : map.copyOf? a = some c) : map.image a = c := by
  rw [image, h, Option.getD_some]

/-- The image of a symbol without a copy is itself. -/
theorem image_of_not_copied {a : Symbol} (h : map.copyOf? a = none) : map.image a = a := by
  rw [image, h, Option.getD_none]

end CopyMap

end Graft
