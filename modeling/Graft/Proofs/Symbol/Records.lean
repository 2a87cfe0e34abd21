/-
# Reading a table after it was written

A record is added at the end of its arena and completed in its place; both leave
every other record, and every other arena, as it was.  `SymbolTable.count` says
how many symbols of a kind there are, and a symbol is allocated if its position
is below that.  What a later table has besides is `SymbolTable.added`.
-/

import Graft.Proofs.Growth

namespace Graft

namespace Kind

/-- All kinds. -/
def all : List Kind := [.cls, .fn, .ctor, .var, .param, .typeParam]

/-- There are no other kinds. -/
theorem mem_all (k : Kind) : k ∈ all := by cases k <;> decide

/-- What holds of every kind can be decided kind by kind. -/
instance (P : Kind → Prop) [DecidablePred P] : Decidable (∀ k, P k) :=
  decidable_of_iff (∀ k ∈ all, P k) ⟨fun h k => h k k.mem_all, fun h k _ => h k⟩

end Kind

/-- Handles of one kind are equal if they are as symbols. -/
theorem SymbolId.symbol_inj {k : Kind} {a b : SymbolId k} : a.symbol = b.symbol ↔ a = b := by
  obtain ⟨i⟩ := a
  obtain ⟨j⟩ := b
  simp [symbol]

/-- Symbols of different kinds are different. -/
theorem SymbolId.symbol_ne {k k' : Kind} (h : k ≠ k') (a : SymbolId k) (b : SymbolId k') :
    a.symbol ≠ b.symbol := fun e => h (congrArg Symbol.kind e)

/-- A callable is a function or a constructor. -/
theorem Callable.symbol_ne {k : Kind} (hf : k ≠ .fn) (hc : k ≠ .ctor) (callable : Callable)
    (id : SymbolId k) : callable.symbol ≠ id.symbol := by
  cases callable with
  | fn f => exact SymbolId.symbol_ne hf.symm f id
  | ctor c => exact SymbolId.symbol_ne hc.symm c id

/-- What can be called is determined by its symbol. -/
theorem Callable.symbol_inj {a b : Callable} : a.symbol = b.symbol ↔ a = b := by
  cases a with
  | fn i =>
    cases b with
    | fn j => exact SymbolId.symbol_inj.trans (Callable.fn.injEq i j).symm.to_iff
    | ctor j => exact iff_of_false (SymbolId.symbol_ne (by decide) i j) nofun
  | ctor i =>
    cases b with
    | fn j => exact iff_of_false (SymbolId.symbol_ne (by decide) i j) nofun
    | ctor j => exact SymbolId.symbol_inj.trans (Callable.ctor.injEq i j).symm.to_iff

namespace SymbolTable

variable {k k' : Kind} {table : SymbolTable}

/-- How many symbols of a kind there are. -/
def count (table : SymbolTable) (k : Kind) : Nat := (table.arena k).size

/-- The table has a record for the symbol. -/
def Allocated (table : SymbolTable) (s : Symbol) : Prop := s.index < table.count s.kind

instance (s : Symbol) : Decidable (table.Allocated s) := inferInstanceAs (Decidable (_ < _))

/-- A symbol is allocated if there is a record for it. -/
theorem allocated_iff {id : SymbolId k} :
    table.Allocated id.symbol ↔ ∃ r, table.get? id = some r := by
  rw [get?]
  constructor
  · intro h
    exact ⟨_, Array.getElem?_eq_getElem h⟩
  · rintro ⟨r, h⟩
    obtain ⟨hi, -⟩ := Array.getElem?_eq_some_iff.1 h
    exact hi

/-- An extension has no fewer symbols of a kind. -/
theorem Extends.count_le {later : SymbolTable} (h : later.Extends table) (k : Kind) :
    table.count k ≤ later.count k := (h k).size_le

/-- What is allocated is allocated in every extension. -/
theorem Extends.allocated {later : SymbolTable} (h : later.Extends table) {s : Symbol}
    (hs : table.Allocated s) : later.Allocated s := Nat.lt_of_lt_of_le hs (h.count_le s.kind)

/-- An arena that is exchanged is read back. -/
theorem arena_withArena_self (table : SymbolTable) (k : Kind) (records : Array (Record k)) :
    (table.withArena k records).arena k = records := by
  cases k <;> rfl

/-- Exchanging an arena leaves those of other kinds. -/
theorem arena_withArena_of_ne (h : k' ≠ k) (table : SymbolTable) (records : Array (Record k)) :
    (table.withArena k records).arena k' = table.arena k' := by
  cases k <;> cases k' <;> first | rfl | exact absurd rfl h

/-- A record more in one arena makes the table one larger. -/
theorem size_withArena_push (table : SymbolTable) (r : Record k) :
    (table.withArena k ((table.arena k).push r)).size = table.size + 1 := by
  cases k <;> simp only [size, withArena, arena, Array.size_push] <;> omega

/-! ### Adding a record -/

/-- A record is added at the end of its arena. -/
theorem arena_add_self (table : SymbolTable) (r : Record k) :
    (table.add r).2.arena k = (table.arena k).push r := arena_withArena_self ..

/-- Adding a record leaves the arenas of other kinds. -/
theorem arena_add_of_ne (h : k' ≠ k) (table : SymbolTable) (r : Record k) :
    (table.add r).2.arena k' = table.arena k' := arena_withArena_of_ne h ..

/-- A record more is a symbol more of its kind. -/
theorem count_add_self (table : SymbolTable) (r : Record k) :
    (table.add r).2.count k = table.count k + 1 := by
  rw [count, arena_add_self, Array.size_push, count]

/-- Adding a record does not add symbols of other kinds. -/
theorem count_add_of_ne (h : k' ≠ k) (table : SymbolTable) (r : Record k) :
    (table.add r).2.count k' = table.count k' := by
  rw [count, arena_add_of_ne h, count]

/-- Adding a record makes the table one larger. -/
theorem size_add (table : SymbolTable) (r : Record k) : (table.add r).2.size = table.size + 1 :=
  size_withArena_push table r

/-- Adding a record keeps all others. -/
theorem add_extends (table : SymbolTable) (r : Record k) : (table.add r).2.Extends table := by
  intro k'
  by_cases h : k' = k
  · subst h
    rw [arena_add_self]
    exact Arena.extends_push _ _
  · rw [arena_add_of_ne h]
    exact .refl _

/-- What is allocated after a record is added: what was, and the new symbol. -/
theorem allocated_add (table : SymbolTable) (r : Record k) (s : Symbol) :
    (table.add r).2.Allocated s ↔ table.Allocated s ∨ s = ⟨k, table.count k⟩ := by
  obtain ⟨k', i⟩ := s
  unfold Allocated
  by_cases h : k' = k
  · subst h
    rw [count_add_self, Symbol.mk.injEq]
    simp only [true_and]
    omega
  · rw [count_add_of_ne h, Symbol.mk.injEq]
    simp [h]

/-! ### Completing a record -/

/-- Completing a record changes it in its arena. -/
theorem arena_modify_self (table : SymbolTable) (id : SymbolId k) (f : Record k → Record k) :
    (table.modify id f).arena k = (table.arena k).modify id.index f := arena_withArena_self ..

/-- Completing a record leaves the arenas of other kinds. -/
theorem arena_modify_of_ne (h : k' ≠ k) (table : SymbolTable) (id : SymbolId k)
    (f : Record k → Record k) : (table.modify id f).arena k' = table.arena k' :=
  arena_withArena_of_ne h ..

/-- Completing a record adds no symbol. -/
theorem count_modify (table : SymbolTable) (id : SymbolId k) (f : Record k → Record k)
    (k' : Kind) : (table.modify id f).count k' = table.count k' := by
  unfold count
  by_cases h : k' = k
  · subst h
    rw [arena_modify_self, Array.size_modify]
  · rw [arena_modify_of_ne h]

/-- Completing a record allocates nothing. -/
theorem allocated_modify (table : SymbolTable) (id : SymbolId k) (f : Record k → Record k)
    (s : Symbol) : (table.modify id f).Allocated s ↔ table.Allocated s := by
  rw [Allocated, count_modify, Allocated]

/-- Completing a record leaves the table as large as it was. -/
theorem size_modify (table : SymbolTable) (id : SymbolId k) (f : Record k → Record k) :
    (table.modify id f).size = table.size := by
  cases k <;> simp only [size, modify, withArena, arena, Array.size_modify]

/-- A record that was completed is found as completed. -/
theorem get?_modify_self (table : SymbolTable) (id : SymbolId k) (f : Record k → Record k) :
    (table.modify id f).get? id = (table.get? id).map f := by
  rw [get?, arena_modify_self, Array.getElem?_modify, if_pos rfl, get?]

/-- Completing a record leaves all others. -/
theorem get?_modify_of_ne (table : SymbolTable) {id : SymbolId k} {id' : SymbolId k'}
    (h : id'.symbol ≠ id.symbol) (f : Record k → Record k) :
    (table.modify id f).get? id' = table.get? id' := by
  by_cases hk : k' = k
  · subst hk
    rw [get?, arena_modify_self, Array.getElem?_modify, if_neg, get?]
    intro hindex
    exact h (congrArg (Symbol.mk k') hindex.symm)
  · rw [get?, arena_modify_of_ne hk, get?]

/-- Completing a record that the earlier table does not have keeps all that it
has. -/
theorem Extends.modify {later : SymbolTable} (h : later.Extends table) {id : SymbolId k}
    (hid : ¬ table.Allocated id.symbol) (f : Record k → Record k) :
    (later.modify id f).Extends table := by
  intro k'
  by_cases hk : k' = k
  · subst hk
    rw [arena_modify_self]
    exact (h k').modify (Nat.le_of_not_lt hid) f
  · rw [arena_modify_of_ne hk]
    exact h k'

/-! ### What a later table has besides -/

/-- The symbols that the later table has and the earlier one does not. -/
def added (earlier later : SymbolTable) : List Symbol :=
  Kind.all.flatMap fun k =>
    (List.range' (earlier.count k) (later.count k - earlier.count k)).map (Symbol.mk k)

variable {earlier later : SymbolTable}

/-- What was added is allocated later, but not earlier. -/
theorem mem_added {s : Symbol} :
    s ∈ added earlier later ↔ ¬ earlier.Allocated s ∧ later.Allocated s := by
  obtain ⟨k, i⟩ := s
  unfold added Allocated
  simp only [List.mem_flatMap, List.mem_map, List.mem_range'_1, Symbol.mk.injEq]
  constructor
  · rintro ⟨k', -, j, hj, rfl, rfl⟩
    omega
  · rintro ⟨h, h'⟩
    exact ⟨k, k.mem_all, i, by omega, rfl, rfl⟩

/-- No added symbol is listed twice. -/
theorem nodup_added : (added earlier later).Nodup := by
  unfold added List.Nodup
  rw [List.pairwise_flatMap]
  constructor
  · intro k _
    have hrange : (List.range' (earlier.count k) (later.count k - earlier.count k)).Nodup :=
      List.nodup_range'
    refine List.pairwise_map.2 (hrange.imp fun h e => h ?_)
    injection e
  · have hall : Kind.all.Nodup := by decide
    refine hall.imp fun {k k'} hk s hs s' hs' e => hk ?_
    obtain ⟨i, -, rfl⟩ := List.mem_map.1 hs
    obtain ⟨j, -, rfl⟩ := List.mem_map.1 hs'
    injection e

end SymbolTable

end Graft
