/-
# Arenas only grow

A handle means the entry at its position, so it keeps its meaning as long as the
entries that are there stay (`Arena.Extends`).  A symbol table, a type pool, an
interner and the program that owns all three extend an earlier one if each of
their arenas does.  For tables this is what `SymbolTable.isExtensionOf` decides
(`SymbolTable.isExtensionOf_iff`).
-/

import Graft.Program

namespace Graft

namespace Arena

variable {α : Type} {a b c : Array α}

/-- Every entry of the earlier arena is in the later one, at its position. -/
def Extends (later earlier : Array α) : Prop :=
  ∀ (i : Nat) x, earlier[i]? = some x → later[i]? = some x

/-- An arena extends itself. -/
theorem Extends.refl (a : Array α) : Extends a a := fun _ _ h => h

/-- What extends an extension extends the arena. -/
theorem Extends.trans (h : Extends b a) (h' : Extends c b) : Extends c a :=
  fun i x hx => h' i x (h i x hx)

/-- An entry more extends an arena. -/
theorem extends_push (a : Array α) (x : α) : Extends (a.push x) a := by
  intro i y h
  obtain ⟨hi, rfl⟩ := Array.getElem?_eq_some_iff.1 h
  rw [Array.getElem?_push_lt hi]

/-- An entry that the earlier arena does not have may be exchanged. -/
theorem Extends.modify (h : Extends b a) {i : Nat} (hi : a.size ≤ i) (f : α → α) :
    Extends (b.modify i f) a := by
  intro j x hx
  obtain ⟨hj, -⟩ := Array.getElem?_eq_some_iff.1 hx
  rw [Array.getElem?_modify, if_neg (by omega)]
  exact h j x hx

/-- An extension is not shorter. -/
theorem Extends.size_le (h : Extends b a) : a.size ≤ b.size := by
  rcases Nat.eq_zero_or_pos a.size with h0 | h0
  · omega
  · have hlast := h (a.size - 1) a[a.size - 1] (Array.getElem?_eq_getElem (by omega))
    obtain ⟨hlt, -⟩ := Array.getElem?_eq_some_iff.1 hlast
    omega

/-- Being a prefix is a decision procedure for extension. -/
theorem isPrefixOf_iff [BEq α] [LawfulBEq α] : a.isPrefixOf b = true ↔ Extends b a := by
  rw [← Array.isPrefixOf_toList, List.isPrefixOf_iff_prefix]
  constructor
  · rintro ⟨rest, h⟩ i x hx
    obtain ⟨hi, rfl⟩ := Array.getElem?_eq_some_iff.1 hx
    rw [← Array.getElem?_toList, ← h, List.getElem?_append_left (by simpa using hi)]
    simp [hi]
  · intro h
    rw [List.prefix_iff_getElem?]
    intro i hi
    have := h i a[i] (Array.getElem?_eq_getElem (by simpa using hi))
    simpa using this

end Arena

namespace SymbolTable

variable {a b c : SymbolTable}

/-- Every symbol of the earlier table is in the later one, unchanged and under
the same handle. -/
def Extends (later earlier : SymbolTable) : Prop :=
  ∀ k, Arena.Extends (later.arena k) (earlier.arena k)

/-- A table extends itself. -/
theorem Extends.refl (a : SymbolTable) : a.Extends a := fun _ => .refl _

/-- What extends an extension extends the table. -/
theorem Extends.trans (h : b.Extends a) (h' : c.Extends b) : c.Extends a :=
  fun k => (h k).trans (h' k)

/-- A record of the table is found in every extension. -/
theorem Extends.get? (h : b.Extends a) {k : Kind} {id : SymbolId k} {r : Record k}
    (hr : a.get? id = some r) : b.get? id = some r := h k _ _ hr

/-- The check that the table offers is right. -/
theorem isExtensionOf_iff : b.isExtensionOf a = true ↔ b.Extends a := by
  unfold isExtensionOf
  simp only [Bool.and_eq_true, Arena.isPrefixOf_iff]
  constructor
  · rintro ⟨⟨⟨⟨⟨h₁, h₂⟩, h₃⟩, h₄⟩, h₅⟩, h₆⟩ k
    cases k
    · exact h₁
    · exact h₂
    · exact h₃
    · exact h₄
    · exact h₅
    · exact h₆
  · intro h
    exact ⟨⟨⟨⟨⟨h .cls, h .fn⟩, h .ctor⟩, h .var⟩, h .param⟩, h .typeParam⟩

end SymbolTable

namespace TypePool

variable {a b c : TypePool}

/-- Every type of the earlier pool is in the later one under the same handle. -/
def Extends (later earlier : TypePool) : Prop :=
  ∀ t e, earlier.entry t = .ok e → later.entry t = .ok e

/-- A pool extends itself. -/
theorem Extends.refl (a : TypePool) : a.Extends a := fun _ _ he => he

/-- What extends an extension extends the pool. -/
theorem Extends.trans (h : b.Extends a) (h' : c.Extends b) : c.Extends a :=
  fun t e he => h' t e (h t e he)

/-- What the pool holds for a type stays in every extension. -/
theorem Extends.entry (h : b.Extends a) {t : TypeId} {e : TypeEntry} (he : a.entry t = .ok e) :
    b.entry t = .ok e := h t e he

/-- What the pool holds for a type is its shape and what is known of it. -/
theorem entry_eq_ok {t : TypeId} {e : TypeEntry} :
    a.entry t = .ok e ↔ a.shapes[t.raw]? = some e.shape ∧ a.facts[t.raw]? = some e.facts := by
  unfold entry
  split
  · rename_i shape facts hshape hfacts
    rw [hshape, hfacts]
    constructor
    · rintro ⟨⟩
      exact ⟨rfl, rfl⟩
    · rintro ⟨hs, hf⟩
      rw [Option.some.inj hs, Option.some.inj hf]
  · rename_i hnone
    exact iff_of_false nofun fun h => hnone _ _ h.1 h.2

/-- Something is known of every shape that is there. -/
theorem exists_entry {t : TypeId} {shape : TypeShape} (h : a.shapes[t.raw]? = some shape) :
    ∃ facts, a.entry t = .ok ⟨shape, facts⟩ := by
  have hlt : t.raw < a.facts.size := a.aligned ▸ (Array.getElem?_eq_some_iff.1 h).1
  exact ⟨_, entry_eq_ok.2 ⟨h, Array.getElem?_eq_getElem hlt⟩⟩

end TypePool

namespace Interner

variable {a b c : Interner}

/-- Every name of the earlier interner stands for the same string in the later. -/
def Extends (later earlier : Interner) : Prop := Arena.Extends later.strings earlier.strings

/-- An interner extends itself. -/
theorem Extends.refl (a : Interner) : a.Extends a := Arena.Extends.refl _

/-- What extends an extension extends the interner. -/
theorem Extends.trans (h : b.Extends a) (h' : c.Extends b) : c.Extends a :=
  Arena.Extends.trans h h'

/-- A name that is interned is looked up alike in every extension. -/
theorem Extends.lookup (h : b.Extends a) {n : Name} (hn : n.raw < a.size) :
    b.lookup n = a.lookup n := by
  have ha := Array.getElem?_eq_getElem hn
  unfold Interner.lookup
  rw [ha, h _ _ ha]

/-- A string that is found is interned as it is. -/
theorem intern_of_find? {names : Interner} {s : String} {n : Name} (h : names.find? s = some n) :
    names.intern s = .ok (n, names) := by
  unfold intern
  split
  · rename_i n' hfind
    rw [Option.some.inj (h.symm.trans hfind)]
  · rename_i hnone
    exact nomatch h.symm.trans hnone

/-- A string that is new is added while there is room. -/
theorem intern_of_new {names : Interner} {s : String} (hnew : names.find? s = none) :
    names.intern s = if names.strings.size ≤ maxName then
      .ok (⟨names.strings.size⟩, names.push s hnew) else .error ⟨names.strings.size⟩ := by
  unfold intern
  split
  · rename_i n hfind
    exact nomatch hnew.symm.trans hfind
  · rfl

/-- A string is found, or it is new and added at the end. -/
theorem intern_cases {names : Interner} {s : String} {n : Name} {names' : Interner}
    (h : names.intern s = .ok (n, names')) :
    (names.find? s = some n ∧ names' = names) ∨
      (∃ hnew : names.find? s = none, names.strings.size ≤ maxName ∧
        n = ⟨names.strings.size⟩ ∧ names' = names.push s hnew) := by
  unfold intern at h
  split at h
  · rename_i hfind
    cases h
    exact .inl ⟨hfind, rfl⟩
  · rename_i hnone
    split at h
    · rename_i hroom
      cases h
      exact .inr ⟨hnone, hroom, rfl, rfl⟩
    · cases h

/-- Interning keeps what is interned. -/
theorem intern_extends {names : Interner} {s : String} {n : Name} {names' : Interner}
    (h : names.intern s = .ok (n, names')) : names'.Extends names := by
  rcases intern_cases h with ⟨-, rfl⟩ | ⟨-, -, -, rfl⟩
  · exact .refl _
  · exact Arena.extends_push _ _

end Interner

namespace Program

variable {a b c : Program}

/-- Every symbol, type and name of the earlier program is in the later one and
means the same. -/
structure Extends (later earlier : Program) : Prop where
  symbols : later.symbols.Extends earlier.symbols
  pool : later.pool.Extends earlier.pool
  names : later.supply.names.Extends earlier.supply.names

/-- A program extends itself. -/
theorem Extends.refl (a : Program) : a.Extends a := ⟨.refl _, .refl _, .refl _⟩

/-- What extends an extension extends the program. -/
theorem Extends.trans (h : b.Extends a) (h' : c.Extends b) : c.Extends a :=
  ⟨h.symbols.trans h'.symbols, h.pool.trans h'.pool, h.names.trans h'.names⟩

end Program

end Graft
