/-
# Closed programs stay closed

A program is closed if it has all that its records mention (`Program.closed_iff`).  It
stays closed when a record is added or completed whose symbols and types it has
(`Program.Closed.add`, `Program.Closed.modify`) and when types are added to its pool.
What a program has, a wider one has too (`Program.Wider`), so records and nodes that were
known stay known.
-/

import Graft.Proofs.Program.Closed

namespace Graft

variable {k : Kind}

/-- The program has all symbols and types that the record mentions. -/
structure Record.KnownTo (program : Program) (k : Kind) (r : Record k) : Prop where
  symbols : ∀ s ∈ Record.symbols k r, program.symbols.Allocated s
  types : ∀ t ∈ Record.types k r, program.pool.Has t

namespace SymbolTable

variable {table : SymbolTable} {P : (k : Kind) → Record k → Prop}

/-- What holds of every record and of the one that is added holds of every record
afterwards. -/
theorem forall_arena_add (h : ∀ k, ∀ r ∈ (table.arena k).toList, P k r) {r : Record k}
    (hr : P k r) : ∀ k', ∀ r' ∈ ((table.add r).2.arena k').toList, P k' r' := by
  intro k' r' hr'
  by_cases hk : k' = k
  · subst hk
    rw [arena_add_self, Array.toList_push, List.mem_append, List.mem_singleton] at hr'
    rcases hr' with hr' | rfl
    · exact h k' r' hr'
    · exact hr
  · rw [arena_add_of_ne hk] at hr'
    exact h k' r' hr'

/-- What completing a record keeps holds of every record afterwards. -/
theorem forall_arena_modify (h : ∀ k, ∀ r ∈ (table.arena k).toList, P k r) {id : SymbolId k}
    {f : Record k → Record k} (hf : ∀ r, P k r → P k (f r)) :
    ∀ k', ∀ r' ∈ ((table.modify id f).arena k').toList, P k' r' := by
  intro k' r' hr'
  by_cases hk : k' = k
  · subst hk
    rw [arena_modify_self, Array.mem_toList_iff] at hr'
    obtain ⟨i, hi, rfl⟩ := Array.mem_iff_getElem.1 hr'
    rw [Array.size_modify] at hi
    have hold : P k' (table.arena k')[i] := h k' _ (Array.mem_toList_iff.2 (Array.getElem_mem hi))
    rw [Array.getElem_modify]
    split
    · exact hf _ hold
    · exact hold
  · rw [arena_modify_of_ne hk] at hr'
    exact h k' r' hr'

end SymbolTable

/-- The later program has every symbol and type that the earlier one has. -/
structure Program.Wider (earlier later : Program) : Prop where
  allocated : ∀ s, earlier.symbols.Allocated s → later.symbols.Allocated s
  has : ∀ t, earlier.pool.Has t → later.pool.Has t

variable {program later : Program}

/-- A record stays known in wider programs. -/
theorem Record.KnownTo.wider {r : Record k} (h : Record.KnownTo program k r)
    (hw : program.Wider later) : Record.KnownTo later k r :=
  ⟨fun s hs => hw.allocated s (h.symbols s hs), fun t ht => hw.has t (h.types t ht)⟩

/-- A node stays known in wider programs. -/
theorem Node.KnownTo.wider {n : Node} (h : n.KnownTo program) (hw : program.Wider later) :
    n.KnownTo later :=
  ⟨fun s hs => hw.allocated s (h.symbols s hs), fun t ht => hw.has t (h.types t ht)⟩

/-- A tree stays closed in wider programs. -/
theorem Node.ClosedIn.wider {root : Node} (h : root.ClosedIn program)
    (hw : program.Wider later) : root.ClosedIn later := fun n hn => (h n hn).wider hw

namespace Program

/-- A program is as wide as itself. -/
theorem Wider.refl (program : Program) : Wider program program := ⟨fun _ h => h, fun _ h => h⟩

/-- What is wider than a wider program is wider. -/
theorem Wider.trans {a b c : Program} (h : Wider a b) (h' : Wider b c) : Wider a c :=
  ⟨fun s hs => h'.allocated s (h.allocated s hs), fun t ht => h'.has t (h.has t ht)⟩

/-- An extension is wider. -/
theorem Extends.wider (h : later.Extends program) : program.Wider later :=
  ⟨fun _ hs => h.symbols.allocated hs, fun _ ht => h.pool.has ht⟩

/-- A program is closed if all its records are known to it and its types are in order. -/
theorem closed_iff :
    program.Closed ↔ (∀ k, ∀ r ∈ (program.symbols.arena k).toList, Record.KnownTo program k r) ∧
      program.pool.Ordered :=
  ⟨fun h => ⟨fun k r hr => ⟨h.symbols k r hr, h.types k r hr⟩, h.ordered⟩,
    fun ⟨h, ho⟩ => ⟨fun k r hr => (h k r hr).symbols, fun k r hr => (h k r hr).types, ho⟩⟩

/-- The records of a closed program are known. -/
theorem Closed.knownTo (h : program.Closed) {id : SymbolId k} {r : Record k}
    (hr : program.symbols.get? id = some r) : Record.KnownTo program k r :=
  (closed_iff.1 h).1 k r (mem_arena hr)

/-! ### What a copy does to a program -/

/-- A record more makes a program wider. -/
theorem wider_add (program : Program) (r : Record k) :
    program.Wider { program with symbols := (program.symbols.add r).2 } :=
  ⟨fun _ hs => (program.symbols.add_extends r).allocated hs, fun _ ht => ht⟩

/-- **A record that is known may be added.** -/
theorem Closed.add (h : program.Closed) {r : Record k} (hr : Record.KnownTo program k r) :
    ({ program with symbols := (program.symbols.add r).2 } : Program).Closed := by
  have hw := program.wider_add r
  obtain ⟨hall, ho⟩ := closed_iff.1 h
  exact closed_iff.2 ⟨SymbolTable.forall_arena_add (fun k' r' hr' => (hall k' r' hr').wider hw)
    (hr.wider hw), ho⟩

/-- A record that is completed leaves a program as wide as it was. -/
theorem wider_modify (program : Program) (id : SymbolId k) (f : Record k → Record k) :
    program.Wider { program with symbols := program.symbols.modify id f } :=
  ⟨fun s hs => (program.symbols.allocated_modify id f s).2 hs, fun _ ht => ht⟩

/-- **A record may be completed with what is known.** -/
theorem Closed.modify (h : program.Closed) {id : SymbolId k} {f : Record k → Record k}
    (hf : ∀ r, Record.KnownTo program k r → Record.KnownTo program k (f r)) :
    ({ program with symbols := program.symbols.modify id f } : Program).Closed := by
  have hw := program.wider_modify id f
  obtain ⟨hall, ho⟩ := closed_iff.1 h
  have hknown : ∀ k', ∀ r' ∈ ((program.symbols.modify id f).arena k').toList,
      Record.KnownTo program k' r' := SymbolTable.forall_arena_modify hall hf
  exact closed_iff.2 ⟨fun k' r' hr' => (hknown k' r' hr').wider hw, ho⟩

/-- A pool that was added to makes a program wider. -/
theorem wider_withPool {pool : TypePool} (hg : TypePool.Grown program.pool pool) :
    program.Wider { program with pool } := ⟨fun _ hs => hs, fun _ ht => hg.extends_.has ht⟩

/-- Types may be added. -/
theorem Closed.withPool (h : program.Closed) {pool : TypePool}
    (hg : TypePool.Grown program.pool pool) : ({ program with pool } : Program).Closed := by
  obtain ⟨hall, ho⟩ := closed_iff.1 h
  exact closed_iff.2 ⟨fun k r hr => (hall k r hr).wider (wider_withPool hg), hg.ordered ho⟩

/-- Names are no concern. -/
theorem Closed.withSupply (h : program.Closed) (supply : NameSupply) :
    ({ program with supply } : Program).Closed := ⟨h.symbols, h.types, h.ordered⟩

end Program

end Graft
