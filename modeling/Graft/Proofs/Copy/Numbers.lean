/-
# The numbers in the names of copies

The names that a copy generates end in the numbers that its supply gives out, and these follow the
tree: the classes, functions and variables that are declared below the root are numbered as they
are met in preorder (`Copier.copy_numbers`).  Nothing else takes a number, and what is not numbered
keeps its name.
-/

import Graft.Proofs.Copy.Journal
import Graft.Proofs.Name.Drawing

namespace Graft

variable {σ : Type}

/-- The symbols that are declared below the root of a tree and whose copies are numbered, in
preorder. -/
def Node.numberedBelow (root : Node) : List Symbol :=
  root.descendants.filterMap numbered?

namespace Copier

variable {copier : Copier σ} {root : Node} {inlined : String} {program program' : Program}
  {memory memory' : σ} {copied : Copied}

/-- **The names of copies are numbered in preorder.**  Let the supply stand at `n` when a copy
starts that succeeds.  The names that it draws are those of the classes, functions and variables
that are declared below the root, in preorder, and nothing else is taken from the supply.  The `k`th
of these symbols, counted from 0, is copied under the `k`th name, which `target_inlined_name_m` is
interned as.  Here `m` is `n + k`, and `name` is what the symbol's own name stands for after `k`
draws; it is what this name stands for when the copy starts, if the name is interned then.  The
copies of constructors, parameters and `invoke` operators are called as what they copy.  The names
are read in the table that the copy leaves, which has every record of the table that the copy starts
with. -/
theorem copy_numbers
    (hcopy : copier.copy root inlined (program, memory) = .ok copied (program', memory')) :
    let scheme := (copier.job program inlined).scheme
    let draw (a : Symbol) := scheme.fresh ((program'.symbols.name? a).getD .empty)
    program'.symbols.Extends program.symbols ∧
    (∃ names, root.numberedBelow.mapM draw program.supply = .ok names program'.supply ∧
      ∀ (k : Nat) a, root.numberedBelow[k]? = some a →
        ∃ (c : Symbol) (base name : Name) (before : NameSupply),
        copied.map.copyOf? a = some c ∧
        program'.symbols.name? a = some base ∧
        names[k]? = some name ∧
        program'.symbols.name? c = some name ∧
        (root.numberedBelow.take k).mapM draw program.supply = .ok (names.take k) before ∧
        (base.raw < program.supply.names.size →
          before.names.lookup base = program.lookup base) ∧
        program'.supply.names.intern
            (scheme.text (before.names.lookup base) (program.supply.next + k)) =
          .ok (name, program'.supply.names)) ∧
    program'.supply.next = program.supply.next + root.numberedBelow.length ∧
    ∀ a ∈ copied.map.keys, a ∉ root.numberedBelow → ∃ c, copied.map.copyOf? a = some c ∧
      program'.symbols.name? c = program'.symbols.name? a := by
  intro scheme draw
  obtain ⟨named, s₁, hnamed, hjournal, hasks⟩ := copy_journal hcopy
  have hmap : copied.map = s₁.map := hasks.map
  have hsupply : program'.supply = s₁.program.supply := hasks.supply
  have hnumbered : root.numberedBelow = named.map Prod.fst := hnamed.symm
  have hdrawn : (named.map Prod.fst).mapM draw program.supply =
      .ok (named.map Prod.snd) s₁.program.supply := by
    rw [List.mapM_map]
    exact hjournal.drawn
  obtain ⟨-, hnext, hrow⟩ := scheme.fresh_row _ hdrawn
  rw [hnumbered, hsupply, hmap]
  refine ⟨copy_extends hcopy, ⟨_, hdrawn, fun k a ha => ?_⟩, hnext, fun a ha hnot => ?_⟩
  · obtain ⟨name, before, hname, htaken, hbefore, hfind⟩ := hrow k a ha
    obtain ⟨d, hd, rfl⟩ := Option.map_eq_some_iff.1 (List.getElem?_map ▸ ha)
    obtain ⟨base, c, hbase, hc, hcalled⟩ := hjournal.called d (List.mem_of_getElem? hd)
    -- the name that was drawn is the one that the journal gives to the copy
    have hsame : d.2 = name := by
      rw [List.getElem?_map, hd] at hname
      exact Option.some.inj hname
    rw [hbase, Option.getD_some] at hfind
    exact ⟨c, base, name, before, hc, hbase, hname, hsame ▸ hcalled, htaken, hbefore.lookup,
      Interner.intern_of_find? hfind⟩
  · rcases hjournal.others a ha with ha | ha | hkept
    · exact absurd ha (CopyMap.not_mem_keys_empty a)
    · exact absurd ha hnot
    · exact hkept

/-- In the sample tree `Point`, `inner` and `x` are numbered. -/
theorem copy_numbers_sample :
    ∃ copied program', (ofParams ⟨0⟩ (some sampleSubst) {}).copy sampleTree "block"
        (sampleProgram, ()) = .ok copied (program', ()) ∧
      program'.supply.next = 3 ∧
      ∃ c name, copied.map.copyOf? ⟨.var, 0⟩ = some c ∧ program'.symbols.name? c = some name ∧
        program'.lookup name = "outer_block_x_2" := by
  have hok : Succeeds ((ofParams ⟨0⟩ (some sampleSubst) {}).copy sampleTree "block")
      (sampleProgram, ()) = true := by decide +kernel
  obtain ⟨copied, ⟨program', ⟨⟩⟩, hcopy⟩ := succeeds_iff.1 hok
  obtain ⟨hextends, ⟨names, -, hnumbers⟩, hnext, -⟩ := copy_numbers hcopy
  obtain ⟨c, base, name, before, hc, hbase, -, hname, -, htext, hintern⟩ :=
    hnumbers 2 ⟨.var, 0⟩ (by decide +kernel)
  obtain rfl : base = ⟨5⟩ := by
    have hrecord : sampleProgram.symbols.get? (⟨0⟩ : VariableId) =
        some ⟨⟨5⟩, .fn ⟨0⟩, ⟨9⟩, true⟩ := rfl
    have hx : program'.symbols.name? ⟨.var, 0⟩ = some ⟨5⟩ := hextends.retains.name? hrecord
    exact Option.some.inj (hbase.symm.trans hx)
  have hx : before.names.lookup ⟨5⟩ = "x" := htext (by decide +kernel)
  refine ⟨copied, program', hcopy, hnext, c, name, hc, hname, ?_⟩
  rw [hx] at hintern
  exact (Interner.intern_means hintern).lookup

end Copier

end Graft
