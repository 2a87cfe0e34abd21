/-
# Copies do not depend on what else was done

A program goes on to grow: other trees are copied, types and names are added for other
reasons, numbers for names are used up.  None of this matters to a copy.  Made from any closed
program that a closed program has grown to, it fails with the same fault as it does there, or
succeeds with a map that has the same keys and a tree and records that agree, and names that
differ in their numbers only (`CopyCall.copy_independent`).  In particular two trees can be
copied in either order.

For the names this needs that what they are made of was interned at the start.  A name that is not
stands for the empty string, and when the program grows it may come to stand for something else
(`CopyCall.copy_not_independent`).

Both runs are compared with the program that they have in common.  The tree and its records
there decide whether they succeed (`Copier.copy_follows`), and what they make of them is told
by two renamings of its symbols and types (`Copier.copy_copies`).
-/

import Graft.Proofs.Copy.Composition
import Graft.Proofs.Copy.Naming
import Graft.Proofs.Copy.Session
import Graft.Proofs.Copy.Survey

namespace Graft

open TypePool (Grown)

variable {σ : Type} {k : Kind}

/-! ### Programs that have grown -/

/-- The later program is closed, has interned its types and has everything that the earlier
one has.  It may be further on in any way. -/
structure Program.GrowsTo (program later : Program) : Prop where
  extends_ : later.Extends program
  closed : later.Closed
  sound : later.pool.Sound

/-- Growth by steps. -/
theorem Program.GrowsTo.trans {a b c : Program} (h : a.GrowsTo b) (h' : b.GrowsTo c) :
    a.GrowsTo c := ⟨h.extends_.trans h'.extends_, h'.closed, h'.sound⟩

/-- The pool of a program that grows grows with it. -/
theorem Program.GrowsTo.grown {program later : Program} (h : program.GrowsTo later) :
    Grown program.pool later.pool :=
  ⟨h.extends_.pool, fun _ => h.sound.ordered, fun _ => h.sound⟩

/-- There was room before. -/
theorem Program.HasRoom.of_growsTo {program later : Program} {root : Node}
    (h : later.HasRoom root) (hgrows : program.GrowsTo later) : program.HasRoom root :=
  Nat.le_trans (Nat.add_le_add_right hgrows.extends_.names.size_le _) h

namespace Copier

variable {program : Program} {subst : Option ParamSubst} {target : FunctionId} {root : Node}

/-- What a copy leaves behind is what its result says. -/
theorem copy_leaves (copier : Copier σ) (root : Node) (inlined : String) (program : Program)
    (memory : σ) :
    Ends (copier.copy root inlined) (program, memory)
      (fun _ s => s.1 = copier.leaves root inlined program memory)
      (fun _ s => s.1 = copier.leaves root inlined program memory) := by
  unfold Ends leaves
  cases copier.copy root inlined (program, memory) <;> rfl

/-- A replacement leaves, with success or failure, what the pass leaves. -/
theorem replace_leaves (copier : Copier σ) (root : Node) (inlined : String) (program : Program)
    (memory : σ) :
    Ends (copier.replace inlined) (root, program, memory)
      (fun _ s => s.2.1 = copier.leaves root inlined program memory)
      (fun _ s => s.2.1 = copier.leaves root inlined program memory) := by
  unfold Ends replace leaves
  dsimp only
  cases copier.copy root inlined (program, memory) <;> rfl

/-- A closed program grows by every copy of a closed tree. -/
theorem leaves_growsTo (options : CopyOptions) (inlined : String) (memory : σ)
    (hclosed : program.Closed) (hsound : program.pool.Sound) (htop : program.pool.Has .any)
    (htarget : program.symbols.Allocated target.symbol) (hroot : root.ClosedIn program)
    (hwithin : ∀ s ∈ subst, s.Within program.pool) :
    program.GrowsTo ((ofParams target subst options).leaves root inlined program memory) := by
  have hends : Ends ((ofParams target subst options).actions root inlined) { program, memory }
      (fun _ s => program.GrowsTo s.program) (fun _ s => program.GrowsTo s.program) := by
    refine ((actions_safe options inlined memory hclosed htop htarget hroot hwithin).and
      (actions_steps _ root inlined _)).imp ?_ ?_
    · rintro copied s ⟨⟨hclosed', -⟩, -, hsteps⟩
      exact ⟨(adds_of_steps hsteps).extends_, hclosed',
        (CopyJob.Steps.pool_grown rfl hsteps).sound hsound⟩
    · rintro e s ⟨⟨hclosed', -⟩, pending, hsteps⟩
      exact ⟨(adds_of_steps hsteps).extends_, hclosed',
        (CopyJob.Steps.pool_grown rfl hsteps).sound hsound⟩
  obtain ⟨s, hgrows, hleaves⟩ := leaves_of_ends _ hends
  exact hleaves ▸ hgrows

/-- **A closed program grows by any calls in a row.** -/
theorem Session.growsTo {trees given : List Node} {after : Program}
    (h : Session program trees after given) (hclosed : program.Closed)
    (hsound : program.pool.Sound) (htop : program.pool.Has .any)
    (htrees : ∀ root ∈ trees, root.ClosedIn program) : program.GrowsTo after := by
  -- one call more, with what it leaves behind
  have step : ∀ {before later : Program} {given : List Node} {root : Node} {target : FunctionId}
      {subst : Option ParamSubst} {options : CopyOptions} {inlined : String},
      Session program trees before given → program.GrowsTo before → root ∈ given →
      before.symbols.Allocated target.symbol → (∀ s ∈ subst, s.Within before.pool) →
      later = (ofParams target subst options).leaves root inlined before () →
      program.GrowsTo later := by
    rintro before - given root target subst options inlined h hgrows hroot htarget hwithin rfl
    obtain ⟨hbefore, htop', hgiven⟩ := h.closed hclosed htop htrees
    exact hgrows.trans (leaves_growsTo options inlined () hbefore hgrows.sound htop' htarget
      (hgiven root hroot) hwithin)
  induction h with
  | start => exact ⟨.refl _, hclosed, hsound⟩
  | copy h hroot htarget hwithin hcopy ih =>
    exact step h ih hroot htarget hwithin ((copy_leaves _ _ _ _ ()).ok_of_eq hcopy)
  | failedCopy h hroot htarget hwithin hcopy ih =>
    exact step h ih hroot htarget hwithin ((copy_leaves _ _ _ _ ()).err_of_eq hcopy)
  | replace h hroot htarget hwithin hreplace ih =>
    exact step h ih hroot htarget hwithin ((replace_leaves _ _ _ _ ()).ok_of_eq hreplace)
  | failedReplace h hroot htarget hwithin hreplace ih =>
    exact step h ih hroot htarget hwithin ((replace_leaves _ _ _ _ ()).err_of_eq hreplace)

end Copier

/-! ### Names -/

namespace Record

/-- Whether a record has a name of its own can be told without the name. -/
theorem isSome_mintedName?_unnamed (r : Record k) :
    (mintedName? k (unnamed k r)).isSome = (mintedName? k r).isSome := by
  cases k with
  | fn =>
    rw [unnamed]
    split
    · rfl
    · rename_i h
      have h' : ¬ FunctionRecord.isTypeInvoke { r with name := .empty } = true := h
      rw [mintedName?, mintedName?, if_neg h, if_neg h']
      rfl
  | cls | ctor | var | param | typeParam => rfl

/-- Whether a record has a generated name does not change when it is renamed. -/
theorem isSome_mintedName?_rename (ρ : Renaming) (r : Record k) :
    (mintedName? k (rename ρ k r)).isSome = (mintedName? k r).isSome := by
  cases k with
  | fn =>
    rw [mintedName?, mintedName?]
    split <;> rename_i h
    · have h' : r.isTypeInvoke = true := h
      rw [if_pos h']
    · have h' : ¬ r.isTypeInvoke = true := h
      rw [if_neg h']
      rfl
  | cls | ctor | var | param | typeParam => rfl

end Record

/-- Copies that correspond both have a name of their own, or neither has one. -/
theorem CopyResult.Agrees.isSome_mintedName? {a b : CopyResult} {program : Program}
    {keys : List Symbol} {ρ : Renaming} (h : a.Agrees b program keys ρ) {id : SymbolId k}
    (hid : id.symbol ∈ keys) :
    (b.program.symbols.mintedName? (b.exchange.symbol k id).symbol).isSome =
      (a.program.symbols.mintedName? (a.exchange.symbol k id).symbol).isSome := by
  obtain ⟨r, r', hr, hr', hsame, -⟩ := h.records k id hid
  rw [SymbolTable.mintedName?_symbol, SymbolTable.mintedName?_symbol, hr, hr']
  calc (Record.mintedName? k r').isSome
      = (Record.mintedName? k (Record.unnamed k r')).isSome :=
        (Record.isSome_mintedName?_unnamed r').symm
    _ = (Record.mintedName? k (Record.rename ρ k r)).isSome := by
        rw [hsame, Record.isSome_mintedName?_unnamed]
    _ = (Record.mintedName? k r).isSome := Record.isSome_mintedName?_rename ρ r

namespace Program

/-- What the copy of a symbol is named after is interned. -/
def Interns (program : Program) (a : Symbol) : Prop :=
  ∀ n ∈ program.symbols.baseName? a, n.raw < program.supply.names.size

instance (program : Program) (a : Symbol) : Decidable (program.Interns a) :=
  inferInstanceAs (Decidable (∀ n ∈ program.symbols.baseName? a, _))

variable {program later : Program}

/-- A copy into a function whose name is interned is labelled alike in a program that has grown. -/
theorem Interns.scheme_eq {copier : Copier σ} (h : program.Interns copier.target.symbol)
    (hext : later.Extends program) (htarget : program.symbols.Allocated copier.target.symbol)
    (inlined : String) :
    (copier.job later inlined).scheme = (copier.job program inlined).scheme := by
  obtain ⟨r, hr⟩ := SymbolTable.allocated_iff.1 htarget
  have hbase : program.symbols.baseName? copier.target.symbol = some r.name := by
    rw [SymbolTable.baseName?_symbol, hr]
    rfl
  have hname : later.lookup r.name = program.lookup r.name := hext.names.lookup (h _ hbase)
  rw [Copier.job, Copier.job, hr, hext.symbols.get? hr]
  simp only [Option.elim_some, hname]

end Program

/-- A name that a copy has drawn for the copy of a symbol is made of the name that the symbol
had before the program grew, if this name and that of the target were interned. -/
theorem Copier.copy_names {program start after : Program} {copier : Copier σ} {root : Node}
    {inlined : String} {memory memory' : σ} {copied : Copied}
    (hscheme : program.Interns copier.target.symbol)
    (htarget : program.symbols.Allocated copier.target.symbol) (hext : start.Extends program)
    (hcopy : copier.copy root inlined (start, memory) = .ok copied (after, memory')) {a : Symbol}
    (ha : program.symbols.Allocated a) (hkey : a ∈ copied.map.keys) (hinterned : program.Interns a)
    {n : Name} (hn : after.symbols.mintedName? (copied.map.image a) = some n) :
    ∃ base i, program.symbols.baseName? a = some base ∧
      after.lookup n = (copier.job program inlined).scheme.text (program.lookup base) i := by
  obtain ⟨base, middle, hbase, hmiddle, hlookup⟩ :=
    copier.copy_drawn hcopy (hext.symbols.allocated ha) hkey hn
  -- the symbol is named as it was
  rw [hext.symbols.keeps.baseName a ha] at hbase
  have hsame : middle.names.lookup base = program.lookup base :=
    (hext.names.trans hmiddle.extends_).lookup (hinterned base hbase)
  refine ⟨base, middle.next, hbase, ?_⟩
  rw [hlookup, hscheme.scheme_eq hext htarget, hsame]

/-! ### One call in two programs -/

namespace CopyCall

/-- The copier that makes the call. -/
def copier (call : CopyCall) : Copier Unit :=
  .ofParams call.target call.subst call.options

/-- The copy that the call makes, be it in place or not. -/
def copy (call : CopyCall) (program : Program) :
    EStateM.Result CopyFault (Program × Unit) Copied :=
  call.copier.copy call.root call.inlined (program, ())

/-- The program has everything that the call mentions. -/
structure KnownTo (call : CopyCall) (program : Program) : Prop where
  target : program.symbols.Allocated call.target.symbol
  root : call.root.ClosedIn program
  within : ∀ s ∈ call.subst, s.Within program.pool

instance (call : CopyCall) (program : Program) : Decidable (call.KnownTo program) :=
  decidable_of_iff (program.symbols.Allocated call.target.symbol ∧ call.root.ClosedIn program ∧
    ∀ s ∈ call.subst, s.Within program.pool) ⟨fun ⟨h₁, h₂, h₃⟩ => ⟨h₁, h₂, h₃⟩,
      fun h => ⟨h.target, h.root, h.within⟩⟩

/-- What the name of the copy of a symbol is made of is interned in the program: the name of the
function that the call copies into and the name of the symbol itself. -/
def NamesInterned (call : CopyCall) (program : Program) (a : Symbol) : Prop :=
  program.Interns call.target.symbol ∧ program.Interns a

instance (call : CopyCall) (program : Program) (a : Symbol) :
    Decidable (call.NamesInterned program a) := inferInstanceAs (Decidable (_ ∧ _))

/-- Two copies that the call has made correspond to each other, seen from a program that both
were started from or from what it had grown to.  The names that were generated are compared for
the copies of the symbols for which `named` holds. -/
structure Corresponds (call : CopyCall) (program : Program) (named : Symbol → Prop)
    (copied : Copied) (after : Program) (copied' : Copied) (after' : Program) : Prop where
  keys : ∀ a, a ∈ copied.map.keys ↔ a ∈ copied'.map.keys
  /-- The trees and the records of the copies agree, but for generated names. -/
  agrees : ∃ ρ, (CopyResult.ofCopied copied after call.subst).Agrees
    (.ofCopied copied' after' call.subst) program copied.map.keys ρ
  /-- Both copies of a symbol have a generated name, or neither has one. -/
  isSome_name : ∀ a ∈ copied.map.keys,
    (after'.symbols.mintedName? (copied'.map.image a)).isSome =
      (after.symbols.mintedName? (copied.map.image a)).isSome
  /-- Generated names have texts that differ in the number only. -/
  names : ∀ a ∈ copied.map.keys, named a →
    ∀ n ∈ after.symbols.mintedName? (copied.map.image a),
    ∀ n' ∈ after'.symbols.mintedName? (copied'.map.image a),
      ∃ base i i', program.symbols.baseName? a = some base ∧
        after.lookup n =
          (call.copier.job program call.inlined).scheme.text (program.lookup base) i ∧
        after'.lookup n' =
          (call.copier.job program call.inlined).scheme.text (program.lookup base) i'

/-- Made in the program and in what it has grown to, the call fails with the same fault or
makes copies that correspond. -/
def SameOutcome (call : CopyCall) (program later : Program) (named : Symbol → Prop) : Prop :=
  match call.copy program, call.copy later with
  | .ok copied s, .ok copied' s' => call.Corresponds program named copied s.1 copied' s'.1
  | .error e _, .error e' _ => e = e'
  | _, _ => False

variable {call : CopyCall} {program later : Program}

/-- A call stays known as the program grows. -/
theorem KnownTo.growsTo (h : call.KnownTo program) (hgrows : program.GrowsTo later) :
    call.KnownTo later where
  target := hgrows.extends_.symbols.allocated h.target
  root := h.root.wider hgrows.extends_.wider
  within s hs := (h.within s hs).extends_ hgrows.extends_.pool

/-- A call leaves behind what its copy does. -/
theorem run_program (call : CopyCall) (program : Program) :
    (call.run program).program = call.copier.leaves call.root call.inlined program () := by
  unfold run Copier.replace Copier.leaves copier
  dsimp only
  cases Copier.copy _ call.root call.inlined (program, ()) <;> cases call.inPlace <;> rfl

section

variable (hclosed : program.Closed) (hsound : program.pool.Sound)
  (htop : program.pool.Has .any) (hcall : call.KnownTo program)

include hclosed hsound htop hcall

/-- A closed program grows by every call that it knows. -/
theorem run_growsTo : program.GrowsTo (call.run program).program := by
  rw [run_program]
  exact Copier.leaves_growsTo call.options call.inlined () hclosed hsound htop hcall.target
    hcall.root hcall.within

variable (hgrows : program.GrowsTo later)

include hgrows

/-- **Two copies that a call makes correspond to each other.** -/
theorem corresponds {copied copied' : Copied} {after after' : Program}
    (hcopy : call.copy program = .ok copied (after, ()))
    (hcopy' : call.copy later = .ok copied' (after', ())) :
    call.Corresponds program (call.NamesInterned program) copied after copied' after' := by
  have hlater := hcall.growsTo hgrows
  have hext := hgrows.extends_
  have hkeys := Copier.mem_keys_copied hcall.root (.refl _) hclosed hcall.within hcopy
  have hkeys' := Copier.mem_keys_copied hcall.root hext hgrows.closed hlater.within hcopy'
  have hfirst := Copier.copy_copies hclosed hcall.root (.refl _) hclosed hsound htop hcall.within
    (fun _ _ => rfl) hcopy
  have hsecond := Copier.copy_copies hclosed hcall.root hext hgrows.closed hgrows.sound
    (hext.pool.has htop) hlater.within
    (fun _ ht => ParamSubst.made_grown hsound hcall.within hgrows.grown ht) hcopy'
  obtain ⟨ρ, hρ⟩ := hfirst.agrees hsecond hclosed htop hcall.target hcall.root
  refine ⟨fun a => (hkeys a).trans (hkeys' a).symm, ⟨ρ, hρ.mono fun a => (hkeys a).1⟩,
    fun a ha => ?_, fun a ha hnamed n hn n' hn' => ?_⟩
  · have himage : ∀ map : CopyMap,
        map.image a = (map.redirect (⟨a.index⟩ : SymbolId a.kind)).symbol :=
      fun map => map.image_symbol (⟨a.index⟩ : SymbolId a.kind)
    have hid : (⟨a.index⟩ : SymbolId a.kind).symbol ∈ call.root.keys program.symbols :=
      (hkeys a).1 ha
    rw [himage, himage]
    exact hρ.isSome_mintedName? hid
  · have hold := Node.key_allocated hclosed hcall.root ((hkeys a).1 ha)
    obtain ⟨hscheme, hinterned⟩ := hnamed
    obtain ⟨base, i, hbase, hi⟩ :=
      Copier.copy_names hscheme hcall.target (.refl _) hcopy hold ha hinterned hn
    obtain ⟨base', i', hbase', hi'⟩ := Copier.copy_names hscheme hcall.target hext hcopy' hold
      ((hkeys' a).2 ((hkeys a).1 ha)) hinterned hn'
    obtain rfl := Option.some.inj (hbase.symm.trans hbase')
    exact ⟨base, i, i', hbase, hi, hi'⟩

omit hsound htop in
/-- Where there is room for names, the call does what the survey says. -/
theorem copy_survey (hroom : later.HasRoom call.root) :
    Ends (call.copier.copy call.root call.inlined) (later, ())
      (fun _ _ => ∃ keys, call.root.surveyBelow program.symbols = .ok keys)
      (fun e _ => ∃ why, call.root.surveyBelow program.symbols = .error why ∧
        e = .rejected why) := by
  have hlater := hcall.growsTo hgrows
  refine ((Copier.copy_follows call.options call.inlined () hclosed hcall.root hcall.target
    hcall.within hgrows.extends_ hgrows.closed).and (Copier.copy_room call.options
      call.inlined () hgrows.closed hlater.root hlater.within hroom)).imp (fun _ _ h => h.1) ?_
  rintro e s ⟨⟨full, he⟩ | hwhy, hfits⟩
  · exact absurd he (hfits full)
  · exact hwhy

/-- **A call does the same wherever it is made.** -/
theorem sameOutcome (hroom : later.HasRoom call.root) :
    call.SameOutcome program later (call.NamesInterned program) := by
  have hself : program.GrowsTo program := ⟨.refl _, hclosed, hsound⟩
  have hends := copy_survey hclosed hcall hself (hroom.of_growsTo hgrows)
  have hends' := copy_survey hclosed hcall hgrows hroom
  unfold SameOutcome
  cases hcopy : call.copy program with
  | ok copied s =>
    obtain ⟨keys, hkeys⟩ := hends.ok_of_eq hcopy
    cases hcopy' : call.copy later with
    | ok copied' s' => exact corresponds hclosed hsound htop hcall hgrows hcopy hcopy'
    | error e' s' =>
      obtain ⟨why, hwhy, -⟩ := hends'.err_of_eq hcopy'
      cases hkeys.symm.trans hwhy
  | error e s =>
    obtain ⟨why, hwhy, rfl⟩ := hends.err_of_eq hcopy
    cases hcopy' : call.copy later with
    | ok copied' s' =>
      obtain ⟨keys, hkeys⟩ := hends'.ok_of_eq hcopy'
      cases hkeys.symm.trans hwhy
    | error e' s' =>
      obtain ⟨why', hwhy', rfl⟩ := hends'.err_of_eq hcopy'
      exact congrArg CopyFault.rejected (Except.error.inj (hwhy.symm.trans hwhy'))

end

/-- **Copies do not depend on what else was done.**  Take a closed program whose types were made
by interning, and a call that it knows.  Made in any closed program that it has grown to, with
room for the names of the copies, the call has the same outcome as in the program itself.  So it
has after any session of copies of closed trees and of their copies, be they successful or not.
In particular two calls can be made in either order.

The texts of generated names are compared for the copies of symbols whose own name is interned in
the program, as is that of the function copied into (`CopyCall.NamesInterned`).  All else is
compared for every symbol. -/
theorem copy_independent (hclosed : program.Closed) (hsound : program.pool.Sound)
    (htop : program.pool.Has .any) (hcall : call.KnownTo program) :
    (∀ later, program.GrowsTo later → later.HasRoom call.root →
      call.SameOutcome program later (call.NamesInterned program)) ∧
    (∀ (trees given : List Node) (later : Program), (∀ root ∈ trees, root.ClosedIn program) →
      Copier.Session program trees later given → later.HasRoom call.root →
        call.SameOutcome program later (call.NamesInterned program)) ∧
    ∀ other : CopyCall, other.KnownTo program →
      (other.run program).program.HasRoom call.root →
      (call.run program).program.HasRoom other.root →
        call.SameOutcome program (other.run program).program (call.NamesInterned program) ∧
          other.SameOutcome program (call.run program).program (other.NamesInterned program) := by
  refine ⟨fun later hgrows => sameOutcome hclosed hsound htop hcall hgrows,
    fun trees given later htrees hsession => ?_, fun other hother hroom hroom' => ⟨?_, ?_⟩⟩
  · exact sameOutcome hclosed hsound htop hcall (hsession.growsTo hclosed hsound htop htrees)
  · exact sameOutcome hclosed hsound htop hcall (run_growsTo hclosed hsound htop hother) hroom
  · exact sameOutcome hclosed hsound htop hother (run_growsTo hclosed hsound htop hcall) hroom'

/-- The sample tree can be copied before or after a call that fails: it is to replace a class
without the constructor that the class lists.  The names of its class, its function and its
variable are interned. -/
theorem copy_independent_sample :
    let call : CopyCall := ⟨⟨0⟩, some sampleSubst, {}, sampleTree, "block", false⟩
    let other : CopyCall := ⟨⟨0⟩, none, {}, .block ⟨0, 9⟩ ⟨5⟩ [.classDecl ⟨1, 9⟩ .source ⟨0⟩ []],
      "class", true⟩
    Succeeds (call.copier.copy call.root call.inlined) (sampleProgram, ()) = true ∧
      Succeeds (other.copier.copy other.root other.inlined) (sampleProgram, ()) = false ∧
      (∀ a ∈ [⟨.cls, 0⟩, ⟨.fn, 1⟩, ⟨.var, 0⟩], call.NamesInterned sampleProgram a) ∧
      call.SameOutcome sampleProgram (other.run sampleProgram).program
        (call.NamesInterned sampleProgram) ∧
      other.SameOutcome sampleProgram (call.run sampleProgram).program
        (other.NamesInterned sampleProgram) := by
  intro call other
  refine ⟨by decide +kernel, by decide +kernel, by decide +kernel, ?_⟩
  have hsound : sampleProgram.pool.Sound := TypePool.Reachable.sound (.typeParam .start ⟨6⟩)
  have hcall : call.KnownTo sampleProgram := by decide +kernel
  exact (copy_independent (by decide +kernel) hsound (by decide +kernel) hcall).2.2 other
    (by decide +kernel) (by decide +kernel) (by decide +kernel)

/-- A function `main` and a variable of it, whose name is the next one to be given out. -/
def unnamedProgram : Program where
  symbols :=
    { functions := #[
        ⟨⟨1⟩, .module, .declared, [], [], ⟨5⟩, none, none, .final, .everywhere, false, false⟩]
      vars := #[⟨⟨2⟩, .fn ⟨0⟩, .ofPrimitive .int, true⟩] }
  supply := { names := Interner.start.internAll ["main"] }

/-- The program after `y` was interned. -/
def namedProgram : Program :=
  { unnamedProgram with supply := { names := Interner.start.internAll ["main", "y"] } }

/-- A copy of a block that declares the variable. -/
def unnamedCall : CopyCall :=
  ⟨⟨0⟩, none, {}, .block ⟨0, 9⟩ ⟨5⟩ [.variableDecl ⟨1, 8⟩ .source ⟨0⟩ none], "foo", false⟩

/-- **Generated names can depend on what else was done,** where a name is not interned.  Until
another string is interned the variable has the name of the empty string, and its copy is called
`main_foo__0`.  Afterwards the variable is called `y`, and its copy is called `main_foo_y_0`. -/
theorem copy_not_independent :
    ¬ ∀ (program later after after' : Program) (call : CopyCall) (copied copied' : Copied)
        (a : Symbol) (n n' : Name),
      program.Closed → program.pool.Sound → program.pool.Has .any → call.KnownTo program →
      program.GrowsTo later → later.HasRoom call.root →
      call.copy program = .ok copied (after, ()) → call.copy later = .ok copied' (after', ()) →
      after.symbols.mintedName? (copied.map.image a) = some n →
      after'.symbols.mintedName? (copied'.map.image a) = some n' →
      ∃ (text : String) (i i' : Nat), after.lookup n = text ++ "_" ++ toString i ∧
        after'.lookup n' = text ++ "_" ++ toString i' := by
  intro hall
  have hok : Yields (unnamedCall.copier.copy unnamedCall.root unnamedCall.inlined)
      (unnamedProgram, ()) (fun copied s => decide
        ((s.1.symbols.mintedName? (copied.map.image ⟨.var, 0⟩)).map s.1.lookup =
          some "main_foo__0")) = true := by decide +kernel
  have hok' : Yields (unnamedCall.copier.copy unnamedCall.root unnamedCall.inlined)
      (namedProgram, ()) (fun copied s => decide
        ((s.1.symbols.mintedName? (copied.map.image ⟨.var, 0⟩)).map s.1.lookup =
          some "main_foo_y_0")) = true := by decide +kernel
  obtain ⟨copied, ⟨after, ⟨⟩⟩, hcopy, hfound⟩ := yields_iff.1 hok
  obtain ⟨copied', ⟨after', ⟨⟩⟩, hcopy', hfound'⟩ := yields_iff.1 hok'
  obtain ⟨n, hn, htext⟩ := Option.map_eq_some_iff.1 (of_decide_eq_true hfound)
  obtain ⟨n', hn', htext'⟩ := Option.map_eq_some_iff.1 (of_decide_eq_true hfound')
  have hextends : namedProgram.Extends unnamedProgram :=
    ⟨.refl _, .refl _, Arena.isPrefixOf_iff.1 (by decide +kernel)⟩
  obtain ⟨text, i, i', hi, hi'⟩ := hall unnamedProgram namedProgram after after' unnamedCall copied
    copied' ⟨.var, 0⟩ n n' (by decide +kernel) TypePool.sound_default (by decide +kernel)
    (by decide +kernel) ⟨hextends, by decide +kernel, TypePool.sound_default⟩ (by decide +kernel)
    hcopy hcopy' hn hn'
  -- without their numbers the texts are `main_foo_` and `main_foo_y`
  have hsplit : "main_foo_" ++ "_" ++ toString 0 = "main_foo__0" := by decide +kernel
  have hsplit' : "main_foo_y" ++ "_" ++ toString 0 = "main_foo_y_0" := by decide +kernel
  obtain ⟨hfirst, -⟩ := numbered_injective (hsplit.trans (htext.symm.trans hi))
  obtain ⟨hsecond, -⟩ := numbered_injective (hsplit'.trans (htext'.symm.trans hi'))
  exact absurd (hfirst.trans hsecond.symm) (by decide +kernel)

end CopyCall

end Graft
