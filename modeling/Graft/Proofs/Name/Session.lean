/-
# Uses of one supply of names

Copies and other uses of a supply of names follow each other in any order: a name may be
drawn directly, something else may be interned, and trees may be copied in any programs that
share the supply, with any targets, labels and substitutors.  Some of this may fail.  The
names that are drawn, and so the names of what the copies add, are all different and have
different texts (`NameUse.names_distinct`).
-/

import Graft.Proofs.Copy.Naming
import Mathlib.Data.List.Perm.Subperm

namespace Graft

/-- A use of a supply of names. -/
inductive NameUse : Type 1
  /-- A name is drawn. -/
  | fresh (scheme : NameScheme) (base : Name)
  /-- A string is interned. -/
  | intern (text : String)
  /-- A tree is copied, in a program that has the supply and otherwise what is given here. -/
  | copy {σ : Type} (copier : Copier σ) (root : Node) (inlined : String) (symbols : SymbolTable)
      (pool : TypePool) (memory : σ)

namespace NameUse

/-- What the use makes of the supply. -/
def after : NameUse → NameSupply → NameSupply
  | .fresh scheme base, supply =>
    match scheme.fresh base supply with
    | .ok _ next => next
    | .error _ next => next
  | .intern text, supply =>
    match supply.names.intern text with
    | .ok (_, names) => { supply with names }
    | .error _ => supply
  | .copy copier root inlined symbols pool memory, supply =>
    (copier.leaves root inlined { symbols, pool, supply } memory).supply

/-- The names that the use has given out when it is over: the name that was drawn, or the
names of the classes, variables and declared functions that a copy has added. -/
def minted : NameUse → NameSupply → List Name
  | .fresh scheme base, supply =>
    match scheme.fresh base supply with
    | .ok name _ => [name]
    | .error _ _ => []
  | .intern _, _ => []
  | .copy copier root inlined symbols pool memory, supply =>
    let later := (copier.leaves root inlined { symbols, pool, supply } memory).symbols
    (SymbolTable.added symbols later).filterMap later.mintedName?

/-- In the course of the use the names in the log were drawn, those that it has given out
among them. -/
structure Logs (use : NameUse) (supply : NameSupply) (log : List Draw) : Prop where
  draws : supply.Draws log (use.after supply)
  minted : (use.minted supply).Subperm (log.map Draw.name)

/-- What some uses in a row make of the supply. -/
def afterAll (supply : NameSupply) (uses : List NameUse) : NameSupply :=
  uses.foldl (fun supply use => use.after supply) supply

/-- The names that some uses in a row have given out. -/
def mintedAll (supply : NameSupply) : List NameUse → List Name
  | [] => []
  | use :: uses => use.minted supply ++ mintedAll (use.after supply) uses

/-- In the course of some uses in a row the names in the log were drawn. -/
inductive LogsAll : NameSupply → List NameUse → List Draw → Prop
  | nil (supply : NameSupply) : LogsAll supply [] []
  | cons {supply : NameSupply} {use : NameUse} {uses : List NameUse} {log rest : List Draw}
      (h : use.Logs supply log) (hrest : LogsAll (use.after supply) uses rest) :
      LogsAll supply (use :: uses) (log ++ rest)

/-- **Whatever the use, there is a log of it.** -/
theorem exists_logs (use : NameUse) (supply : NameSupply) : ∃ log, use.Logs supply log := by
  cases use with
  | fresh scheme base =>
    cases h : scheme.fresh base supply with
    | ok name next =>
      refine ⟨[⟨scheme, base, supply.next, name⟩], ?_, ?_⟩
      · rw [after, h]
        exact .drawn h (.done _)
      · rw [minted, h]
        exact List.Subperm.refl [name]
    | error e next =>
      refine ⟨[], ?_, ?_⟩
      · rw [after, h]
        exact .refused h (.done _)
      · rw [minted, h]
        exact List.Subperm.refl []
  | intern text =>
    refine ⟨[], ?_, List.Subperm.refl []⟩
    rw [after]
    cases h : supply.names.intern text with
    | ok r => exact .interned h (.done _)
    | error e => exact .done _
  | copy copier root inlined symbols pool memory =>
    obtain ⟨s', ⟨log, hnamed⟩, hs'⟩ := copier.leaves_of_ends
      (copier.actions_named root inlined { program := { symbols, pool, supply }, memory })
    refine ⟨log, ?_, ?_⟩
    · rw [after, ← hs']
      exact hnamed.draws
    · obtain ⟨cs, hnodup, hcs, hnames⟩ := hnamed.minted
      have hperm : (SymbolTable.added symbols s'.program.symbols).Perm cs :=
        (List.perm_ext_iff_of_nodup SymbolTable.nodup_added hnodup).2 fun c =>
          SymbolTable.mem_added.trans (hcs c).symm
      rw [minted, ← hs']
      exact (hperm.filterMap _).subperm.trans hnames.subperm

/-- Every session of uses has a log of the draws made in it. -/
theorem exists_logsAll (uses : List NameUse) (supply : NameSupply) :
    ∃ log, LogsAll supply uses log := by
  induction uses generalizing supply with
  | nil => exact ⟨[], .nil supply⟩
  | cons use uses ih =>
    obtain ⟨log, h⟩ := use.exists_logs supply
    obtain ⟨rest, hrest⟩ := ih (use.after supply)
    exact ⟨log ++ rest, .cons h hrest⟩

/-- The logs of single uses make up one history of the supply. -/
theorem LogsAll.draws {supply : NameSupply} {uses : List NameUse} {log : List Draw}
    (h : LogsAll supply uses log) : supply.Draws log (afterAll supply uses) := by
  induction h with
  | nil supply => exact .done supply
  | cons h _ ih => exact h.draws.append ih

/-- The names minted in a session are among those that were drawn in it. -/
theorem LogsAll.minted {supply : NameSupply} {uses : List NameUse} {log : List Draw}
    (h : LogsAll supply uses log) : (mintedAll supply uses).Subperm (log.map Draw.name) := by
  induction h with
  | nil supply => exact List.Subperm.refl []
  | cons h _ ih =>
    rw [List.map_append]
    exact h.minted.append ih

/-- **No name is given out twice.**  Let a supply of names be used any number of times: names
are drawn from it and trees are copied, under whatever names, labels and substitutions, and
whether this succeeds or stops half way.  Of all the names that were drawn meanwhile no two
are the same, and no two have the same text.  In particular the names of all classes,
variables and declared functions that the copies have added are different, and so are their
texts. -/
theorem names_distinct (uses : List NameUse) (supply : NameSupply) :
    (∃ log, LogsAll supply uses log) ∧
    (∀ log, LogsAll supply uses log → (log.map Draw.name).Nodup ∧
      (log.map fun d => (afterAll supply uses).names.lookup d.name).Nodup) ∧
    (mintedAll supply uses).Nodup ∧
    ((mintedAll supply uses).map (afterAll supply uses).names.lookup).Nodup := by
  have hdistinct : ∀ log, LogsAll supply uses log →
      ((log.map Draw.name).map (afterAll supply uses).names.lookup).Nodup := by
    intro log h
    rw [List.map_map]
    exact h.draws.distinct
  obtain ⟨log, h⟩ := exists_logsAll uses supply
  obtain ⟨names, hperm, hsublist⟩ := h.minted
  have htexts : ((mintedAll supply uses).map (afterAll supply uses).names.lookup).Nodup :=
    (hperm.map _).nodup_iff.1 ((hsublist.map _).nodup (hdistinct log h))
  refine ⟨⟨log, h⟩, fun log' h' => ⟨(hdistinct log' h').of_map _, ?_⟩, htexts.of_map _, htexts⟩
  exact h'.draws.distinct

end NameUse

end Graft
