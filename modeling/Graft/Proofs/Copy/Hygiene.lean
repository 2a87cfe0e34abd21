/-
# Generated names and the names of the program

Generated names differ from each other, for each has its own number.  Nothing keeps a program
from using a name of the same form, and a name that is generated is looked up among those that are
interned.  So a copy may be called like something that was there before, but only if the program
has a name that is spelled exactly like the generated one, its number included
(`Copier.copy_hygienic`).
-/

import Graft.Proofs.Copy.Journal
import Graft.Proofs.Name.Interning

namespace Graft

variable {σ : Type}

namespace Copier

open CopyState Interner

variable {copier : Copier σ} {root : Node} {inlined : String} {program program' : Program}
  {memory memory' : σ} {copied : Copied}

/-- What a copy has added is listed as the copy of something. -/
theorem exists_original
    (hcopy : copier.copy root inlined (program, memory) = .ok copied (program', memory'))
    {c : Symbol} (hc : c ∈ SymbolTable.added program.symbols program'.symbols) :
    ∃ a, copied.map.copyOf? a = some c := by
  have hsteps := ((copier.actions_steps root inlined _).ok_of_eq (actions_of_copy hcopy)).2
  have htracks := CopyState.Tracks.steps hsteps (.start _ rfl)
  obtain ⟨hold, hnew⟩ := SymbolTable.mem_added.1 hc
  exact (htracks.listed c hold hnew).resolve_left (List.not_mem_nil)

/-- **When the name of a copy is not new.**  Every class, variable and declared function that a
copy adds is called `target_inlined_name_m`.  Here `m` is the number that was drawn, which was
unused when the copy began, and `name` is what the name of the copied symbol stood for at that
time; it is what this name stood for when the copy began, if it was interned then.  A symbol that
was there before has the same name if its name is spelled in this way, with the same number, and
otherwise it has another. -/
theorem copy_hygienic
    (hcopy : copier.copy root inlined (program, memory) = .ok copied (program', memory'))
    {c : Symbol} (hc : c ∈ SymbolTable.added program.symbols program'.symbols) {name : Name}
    (hname : program'.symbols.mintedName? c = some name) :
    ∃ (a : Symbol) (original : Name) (middle : NameSupply),
      copied.map.copyOf? a = some c ∧
      program'.symbols.baseName? a = some original ∧
      program.supply.DrawnAt middle program'.supply ∧
      (original.raw < program.supply.names.size →
        middle.names.lookup original = program.lookup original) ∧
      program'.lookup name = (copier.job program inlined).scheme.text
        (middle.names.lookup original) middle.next ∧
      ∀ b x, program.symbols.name? b = some x →
        (x = name ↔ program'.lookup x = (copier.job program inlined).scheme.text
          (middle.names.lookup original) middle.next) ∧
        (x.raw < program.supply.names.size → program'.lookup x = program.lookup x) := by
  obtain ⟨a, ha⟩ := exists_original hcopy hc
  obtain ⟨log, hnamed⟩ := (copier.actions_named root inlined _).ok_of_eq (actions_of_copy hcopy)
  have hordered := hnamed.draws.ordered
  -- the map is empty when a copy begins
  obtain ⟨-, hdrawn⟩ := (hnamed.registered a c ha).resolve_left CopyMap.copyOf?_empty_ne
  obtain ⟨d, hd, rfl, hbase⟩ := hdrawn name hname
  obtain ⟨middle, hmiddle, hnumber, hmeans⟩ := hordered.names d hd
  rw [hnamed.scheme d hd, ← hnumber] at hmeans
  refine ⟨a, d.base, middle, ha, hbase, hmiddle, hmiddle.extends_.lookup, hmeans.lookup,
    fun b x _ => ⟨?_, hordered.extends_.lookup⟩⟩
  show x = d.name ↔ program'.supply.names.lookup x = _
  rw [← hmeans.lookup]
  refine ⟨congrArg _, fun htext => eq_of_lookup htext ?_⟩
  rw [hmeans.lookup]
  exact NameScheme.text_ne_empty _ _ _

/-- The copy of `x` in the sample tree is not called `x`. -/
theorem copy_hygienic_sample :
    ∃ copied program' name, (ofParams ⟨0⟩ (some sampleSubst) {}).copy sampleTree "block"
        (sampleProgram, ()) = .ok copied (program', ()) ∧
      program'.symbols.mintedName? ⟨.var, 1⟩ = some name ∧
      sampleProgram.symbols.name? ⟨.var, 0⟩ ≠ some name := by
  have hok : Yields ((ofParams ⟨0⟩ (some sampleSubst) {}).copy sampleTree "block")
      (sampleProgram, ()) (fun _ s => (s.1.symbols.mintedName? ⟨.var, 1⟩).isSome &&
        decide (⟨.var, 1⟩ ∈ SymbolTable.added sampleProgram.symbols s.1.symbols)) = true := by
    decide +kernel
  obtain ⟨copied, ⟨program', ⟨⟩⟩, hcopy, hfound⟩ := yields_iff.1 hok
  obtain ⟨hsome, hadded⟩ := Bool.and_eq_true_iff.1 hfound
  obtain ⟨name, hname⟩ := Option.isSome_iff_exists.1 hsome
  obtain ⟨a, original, middle, -, -, -, -, -, hold⟩ :=
    copy_hygienic hcopy (of_decide_eq_true hadded) hname
  refine ⟨copied, program', name, hcopy, hname, fun hx => ?_⟩
  obtain ⟨hiff, hkept⟩ := hold _ _ hx
  have hx' : (⟨5⟩ : Name) = name := Option.some.inj hx
  subst hx'
  -- the text of a generated name has an underscore in it
  have htext := (hkept (by decide +kernel)).symm.trans (hiff.1 rfl)
  have hmem : '_' ∈ (sampleProgram.lookup ⟨5⟩).toList := by
    rw [htext]
    simp [NameScheme.text]
  exact absurd hmem (by decide +kernel)

/-- A function `main` in which a variable `x` and one called `main_foo_x_0` are declared. -/
def clashProgram : Program where
  symbols :=
    { functions := #[
        ⟨⟨1⟩, .module, .declared, [], [], ⟨5⟩, none, none, .final, .everywhere, false, false⟩]
      vars := #[⟨⟨2⟩, .fn ⟨0⟩, .ofPrimitive .int, true⟩, ⟨⟨3⟩, .fn ⟨0⟩, .ofPrimitive .int, true⟩] }
  supply := { names := Interner.start.internAll ["main", "x", "main_foo_x_0"] }

/-- A block that declares `x`. -/
def clashTree : Node := .block ⟨0, 9⟩ ⟨5⟩ [.variableDecl ⟨1, 8⟩ .source ⟨0⟩ none]

/-- **Not every generated name is new.**  The first copy of `x` that goes to `main` under the label
`foo` has the name of the other variable. -/
theorem copy_not_hygienic :
    ¬ ∀ (program program' : Program) (target : FunctionId) (subst : Option ParamSubst)
        (options : CopyOptions) (root : Node) (inlined : String) (copied : Copied),
      program.supply.names.Reachable → program.Closed → root.ClosedIn program →
      (ofParams target subst options).copy root inlined (program, ()) = .ok copied (program', ()) →
      ∀ c ∈ SymbolTable.added program.symbols program'.symbols, ∀ b name,
        program'.symbols.mintedName? c = some name → program.symbols.name? b ≠ some name := by
  intro hall
  have hok : Yields ((ofParams ⟨0⟩ none {}).copy clashTree "foo") (clashProgram, ())
      (fun _ s => decide (⟨.var, 2⟩ ∈ SymbolTable.added clashProgram.symbols s.1.symbols ∧
        s.1.symbols.mintedName? ⟨.var, 2⟩ = some ⟨3⟩)) = true := by decide +kernel
  obtain ⟨copied, ⟨program', ⟨⟩⟩, hcopy, hfound⟩ := yields_iff.1 hok
  obtain ⟨hadded, hname⟩ := of_decide_eq_true hfound
  exact hall clashProgram program' ⟨0⟩ none {} clashTree "foo" copied
    (reachable_iff.2 (by decide +kernel)) (by decide +kernel) (by decide +kernel) hcopy
    ⟨.var, 2⟩ hadded ⟨.var, 1⟩ ⟨3⟩ hname (by decide +kernel)

end Copier

end Graft
