/-
# Copies that share a program

Calls of copiers follow each other on one program, whatever trees, targets, labels
and substitutions they are given and however they end.  A call is a chain of steps
(`CopyCall.exists_mints`), and the symbols that the steps hand out are those that it
adds to the table, each once (`CopyCall.Mints.perm`).  So no call disturbs what any
call before it has left (`CopyCall.session_frame`).
-/

import Graft.Proofs.Copy.Additions
import Graft.Proofs.Program.Closed

namespace Graft

/-- A call of a copier. -/
structure CopyCall where
  target : FunctionId
  subst : Option ParamSubst
  options : CopyOptions
  root : Node
  inlined : String
  /-- Whether the tree is replaced by its copy. -/
  inPlace : Bool
deriving DecidableEq

/-- What a call leaves behind. -/
structure CallResult where
  program : Program
  /-- The tree that was given, or what it was replaced by. -/
  tree : Node
  outcome : Except CopyFault CopyMap

namespace CopyCall

/-- Run the call on a program. -/
def run (call : CopyCall) (program : Program) : CallResult :=
  let copier := Copier.ofParams call.target call.subst call.options
  if call.inPlace then
    match copier.replace call.inlined (call.root, program, ()) with
    | .ok map (tree, program, ()) => ⟨program, tree, .ok map⟩
    | .error e (tree, program, ()) => ⟨program, tree, .error e⟩
  else
    match copier.copy call.root call.inlined (program, ()) with
    | .ok copied (program, ()) => ⟨program, call.root, .ok copied.map⟩
    | .error e (program, ()) => ⟨program, call.root, .error e⟩

/-- The program after some calls in a row. -/
def after (program : Program) (calls : List CopyCall) : Program :=
  calls.foldl (fun program call => (call.run program).program) program

/-- The symbols `ids` were handed out, the latest ones first, by a chain of steps that
leads from the given program to the one that the call leaves behind: those of which
no copy was recorded, and those that were recorded as copies. -/
def Mints (call : CopyCall) (program : Program) (ids : List Symbol) : Prop :=
  ∃ pending s,
    ((Copier.ofParams call.target call.subst call.options).job program call.inlined).Steps
      ([], { program, memory := () }) (pending, s) ∧
    s.program = (call.run program).program ∧ ids = pending ++ s.map.copies

variable {call : CopyCall} {program : Program} {ids : List Symbol}

/-- What a call leaves behind is what the actions of a copy leave behind. -/
theorem run_ends (call : CopyCall) (program : Program) :
    Ends ((Copier.ofParams call.target call.subst call.options).actions call.root call.inlined)
      { program, memory := () }
      (fun copied s => call.run program =
        ⟨s.program, if call.inPlace then copied.root else call.root, .ok copied.map⟩)
      (fun e s => call.run program = ⟨s.program, call.root, .error e⟩) := by
  unfold run Copier.replace Copier.copy Ends
  dsimp only
  cases (Copier.ofParams call.target call.subst call.options).actions call.root call.inlined
    { program, memory := () } <;> cases call.inPlace <;> rfl

/-- **Every call is a chain of steps.** -/
theorem exists_mints (call : CopyCall) (program : Program) : ∃ ids, call.Mints program ids := by
  have h := (call.run_ends program).and (Copier.actions_steps _ call.root call.inlined
    { program, memory := () })
  cases hm : (Copier.ofParams call.target call.subst call.options).actions call.root call.inlined
      { program, memory := () } with
  | ok copied s =>
    obtain ⟨hr, -, hs⟩ := h.ok_of_eq hm
    exact ⟨_, [], s, hs, by rw [hr], rfl⟩
  | error e s =>
    obtain ⟨hr, pending, hs⟩ := h.err_of_eq hm
    exact ⟨_, pending, s, hs, by rw [hr], rfl⟩

/-- A call only adds to the program. -/
theorem run_extends (call : CopyCall) (program : Program) :
    (call.run program).program.Extends program := by
  obtain ⟨ids, pending, s, hs, hp, -⟩ := call.exists_mints program
  rw [← hp]
  exact (Copier.adds_of_steps hs).extends_

/-- Any number of calls only add to the program. -/
theorem after_extends (program : Program) (calls : List CopyCall) :
    (after program calls).Extends program := by
  induction calls generalizing program with
  | nil => exact .refl program
  | cons call calls ih => exact (call.run_extends program).trans (ih _)

/-- **The symbols that are handed out are those that the table gains,** each once. -/
theorem Mints.perm (h : call.Mints program ids) :
    ids.Perm (SymbolTable.added program.symbols (call.run program).program.symbols) := by
  obtain ⟨pending, s, hs, hp, rfl⟩ := h
  rw [← hp]
  have ht : s.Tracks program.symbols pending := (Copier.adds_of_steps hs).tracks
  have hnodup : (pending ++ s.map.copies).Nodup := by
    refine List.nodup_append.2 ⟨ht.nodup, CopyMap.nodup_copies ht.injective, ?_⟩
    rintro c hc _ hc' rfl
    obtain ⟨a, ha⟩ := CopyMap.mem_copies.1 hc'
    exact ht.unlisted c hc a ha
  refine (List.perm_ext_iff_of_nodup hnodup SymbolTable.nodup_added).2 fun c => ?_
  rw [List.mem_append, CopyMap.mem_copies, SymbolTable.mem_added]
  exact ⟨ht.added c, fun ⟨hb, ha⟩ => ht.listed c hb ha⟩

/-- The symbols that are handed out are new, and no two of them are the same. -/
theorem Mints.fresh (h : call.Mints program ids) :
    ids.Nodup ∧ ∀ s ∈ ids, ¬ program.symbols.Allocated s ∧
      (call.run program).program.symbols.Allocated s :=
  ⟨h.perm.nodup_iff.2 SymbolTable.nodup_added, fun _ hs =>
    SymbolTable.mem_added.1 (h.perm.mem_iff.1 hs)⟩

/-- A call that succeeds has handed out the copies that its map lists. -/
theorem mints_copies {map : CopyMap} (h : (call.run program).outcome = .ok map) :
    call.Mints program map.copies := by
  have hr := (call.run_ends program).and (Copier.actions_steps _ call.root call.inlined
    { program, memory := () })
  cases hm : (Copier.ofParams call.target call.subst call.options).actions call.root call.inlined
      { program, memory := () } with
  | ok copied s =>
    obtain ⟨hr, hmap, hs⟩ := hr.ok_of_eq hm
    rw [hr] at h
    obtain rfl : copied.map = map := by injection h
    exact ⟨[], s, hs, by rw [hr], by rw [hmap, List.nil_append]⟩
  | error e s =>
    obtain ⟨hr, -⟩ := hr.err_of_eq hm
    rw [hr] at h
    cases h

/-- The program after calls made one after another. -/
theorem after_append (program : Program) (calls calls' : List CopyCall) :
    after program (calls ++ calls') = after (after program calls) calls' := List.foldl_append ..

/-- Everything that a program had before a call means the same afterwards. -/
structure Undisturbed (before after : Program) : Prop where
  symbols : after.symbols.isExtensionOf before.symbols = true
  types : ∀ t, before.pool.Has t → after.pool.entry t = before.pool.entry t
  names : ∀ n : Name, n.raw < before.supply.names.size → after.lookup n = before.lookup n

/-- What extends a program does not disturb it. -/
theorem undisturbed {before after : Program} (h : after.Extends before) :
    Undisturbed before after where
  symbols := SymbolTable.isExtensionOf_iff.2 h.symbols
  types t ht := by
    obtain ⟨e, he⟩ := TypePool.has_iff.1 ht
    rw [he, h.pool.entry he]
  names _ hn := h.names.lookup hn

/-- **No call disturbs what is there.**  Let `call` come after some calls, and `other`
after it and some more.  However `call` ends, what was there means the same
afterwards; the symbols that it hands out are new, different from each other and from
those that `other` hands out, and include the copies that it lists if it succeeds; a
tree that it fails to replace stays as it was; and if the program was closed, no
record that was there mentions a symbol that it hands out. -/
theorem session_frame (program : Program) (earlier between : List CopyCall)
    (call other : CopyCall) :
    Undisturbed (after program earlier) (call.run (after program earlier)).program ∧
    (∃ ids, call.Mints (after program earlier) ids) ∧
    (∀ ids, call.Mints (after program earlier) ids →
      ids.Nodup ∧ (∀ s ∈ ids, ¬ (after program earlier).symbols.Allocated s) ∧
      (∀ ids', other.Mints (after program (earlier ++ call :: between)) ids' →
        ids.Disjoint ids') ∧
      ((after program earlier).Closed → ∀ (k : Kind) (id : SymbolId k) (r : Record k),
        (after program earlier).symbols.get? id = some r →
        (call.run (after program earlier)).program.symbols.get? id = some r ∧
          ∀ s ∈ Record.symbols k r, s ∉ ids)) ∧
    (∀ map, (call.run (after program earlier)).outcome = .ok map →
      call.Mints (after program earlier) map.copies) ∧
    (∀ e, (call.run (after program earlier)).outcome = .error e →
      (call.run (after program earlier)).tree = call.root) := by
  have hext := call.run_extends (after program earlier)
  refine ⟨undisturbed hext, call.exists_mints _, fun ids hids => ?_, fun _ h => mints_copies h, ?_⟩
  · obtain ⟨hnodup, hfresh⟩ := hids.fresh
    refine ⟨hnodup, fun s hs => (hfresh s hs).1, ?_, ?_⟩
    · intro ids' hids' s hs hs'
      -- what `call` hands out is there when `other` starts
      have hthere := ((after_extends _ between).symbols).allocated (hfresh s hs).2
      have hprogram : after program (earlier ++ call :: between) =
          after (call.run (after program earlier)).program between := after_append ..
      rw [hprogram] at hids'
      exact (hids'.fresh.2 s hs').1 hthere
    · intro hclosed k id r hr
      exact ⟨hext.symbols.get? hr, fun s hs hi => (hfresh s hi).1 (hclosed.allocated hr hs)⟩
  · intro e he
    have hrun := call.run_ends (after program earlier)
    cases hm : (Copier.ofParams call.target call.subst call.options).actions call.root
        call.inlined { program := after program earlier, memory := () } with
    | ok copied s =>
      rw [hrun.ok_of_eq hm] at he
      cases he
    | error e' s => rw [hrun.err_of_eq hm]

end CopyCall

end Graft
