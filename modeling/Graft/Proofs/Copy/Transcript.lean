/-
# What a copy has recorded

Every symbol that a copy gives a copy to plays a role below the root (`Node.Plays`): a
node declares it, or calls it as an `invoke` operator, or it is a parameter of a callable
that is copied.  While the first pass walks through the tree, the copies made so far have
the records that their roles give (`CopyState.Transcript`); only a class that is still open
has no constructors yet.  So when a copy has succeeded, the record of every copy can be read
off the record of what it copies (`Copier.copy_records`).
-/

import Graft.Proofs.Copy.Acceptance
import Graft.Proofs.Copy.Coverage

namespace Graft

open ParamSubst (outcome)

variable {σ : Type}

/-- The role of the symbols of a kind that are declared. -/
def CopyRole.declared? : (k : Kind) → Option (CopyRole k)
  | .cls => some .cls
  | .fn => some .fn
  | .ctor => some .ctor
  | .var => some .var
  | .param => none
  | .typeParam => none

/-- The role in which a symbol is copied with the nodes below a root. -/
inductive Node.Plays (table : SymbolTable) (root : Node) : {k : Kind} → SymbolId k → CopyRole k →
    Prop
  | declared {k : Kind} {id : SymbolId k} {role : CopyRole k}
      (hid : id.symbol ∈ declaredBy root.descendants) (hrole : CopyRole.declared? k = some role) :
      Plays table root id role
  | invoke {id : FunctionId} (hid : id ∈ invokedBy table root.descendants)
      (hnot : id.symbol ∉ declaredBy root.descendants) : Plays table root id .invoke
  | param {id : ParamId} {callable : Callable}
      (hcallable : callable.symbol ∈ bringsAll table root.descendants)
      (hid : id ∈ table.paramsOf callable) : Plays table root id (.param callable id)

namespace CopyMap

variable {map : CopyMap} {k : Kind} {id : SymbolId k}

/-- What a key is redirected to is its copy. -/
theorem copyOf?_of_mem_keys (h : id.symbol ∈ map.keys) :
    map.copyOf? id.symbol = some (map.redirect id).symbol := by
  obtain ⟨c, hc⟩ := mem_keys.1 h
  rw [← image_symbol, image_of_copyOf? hc, hc]

end CopyMap

namespace CopyState

variable {s s' : CopyState σ} {job : CopyJob σ} {program : Program} {subst : Option ParamSubst}
  {declared declared' : List Symbol} {keys : List Symbol}

/-- The copies of different keys are different. -/
theorem Tracks.redirect_symbol_ne {base : SymbolTable} (h : s.Tracks base []) {k k' : Kind}
    {id : SymbolId k} {id' : SymbolId k'} (hid : id.symbol ∈ s.map.keys)
    (hid' : id'.symbol ∈ s.map.keys) (hne : id.symbol ≠ id'.symbol) :
    (s.map.redirect id).symbol ≠ (s.map.redirect id').symbol := fun heq =>
  hne (h.injective _ _ _ (CopyMap.copyOf?_of_mem_keys hid)
    (heq ▸ CopyMap.copyOf?_of_mem_keys hid'))

/-- What holds of a state of the first pass.  The declarations `declared` are done, and the
copies made so far have the records that their roles give. -/
structure Transcript (s : CopyState σ) (job : CopyJob σ) (subst : Option ParamSubst)
    (program : Program) (declared : List Symbol) : Prop where
  old : s.Over program
  tracks : s.Tracks program.symbols []
  declarations : ∀ {k : Kind} (id : SymbolId k) (role : CopyRole k) (r : Record k),
    id.symbol ∈ declared → CopyRole.declared? k = some role →
      program.symbols.get? id = some r → s.Reads job subst id role r
  /-- A function that has a copy and is not declared is an `invoke` operator. -/
  invokes : ∀ (f : FunctionId) (r : FunctionRecord), f.symbol ∈ s.map.keys →
    f.symbol ∉ declared → program.symbols.get? f = some r → s.Reads job subst f .invoke r
  params : ∀ callable : Callable, callable.symbol ∈ s.map.keys →
    s.ReadsParams job subst program.symbols callable

/-- A record of a copy stays what it is. -/
theorem Reads.gains {k : Kind} {id : SymbolId k} {role : CopyRole k} {r : Record k}
    (h : s.Reads job subst id role r) (hg : s.Gains s' keys) : s'.Reads job subst id role r :=
  h.imp fun _ hn => hn.gains hg

namespace Transcript

/-- The record of a copy, read in the state itself. -/
theorem record_of_reads {k : Kind} {id : SymbolId k} {role : CopyRole k} {r : Record k}
    (h : s.Reads job subst id role r) {pool : TypePool} (hp : pool.Extends s.program.pool) :
    ∃ name, s.program.symbols.get? (s.map.redirect id) =
      some (role.record (job.terms subst s.map pool) name r) :=
  h.imp fun _ hn => hn.record s.map pool ⟨fun _ _ ha => ha, hp⟩

/-- Only which declarations are done matters. -/
theorem of_mem_iff (h : s.Transcript job subst program declared)
    (hmem : ∀ a, a ∈ declared ↔ a ∈ declared') : s.Transcript job subst program declared' where
  old := h.old
  tracks := h.tracks
  declarations id role r hid := h.declarations id role r ((hmem _).2 hid)
  invokes f r hf hnot := h.invokes f r hf (mt (hmem _).1 hnot)
  params := h.params

/-- Copies that are added must have the records that their roles give. -/
theorem gains (h : s.Transcript job subst program declared) (hg : s.Gains s' keys)
    (htracks : s'.Tracks program.symbols []) {new : List Symbol}
    (hdeclarations : ∀ {k : Kind} (id : SymbolId k) (role : CopyRole k) (r : Record k),
      id.symbol ∈ new → CopyRole.declared? k = some role → program.symbols.get? id = some r →
        s'.Reads job subst id role r)
    (hinvokes : ∀ (f : FunctionId) (r : FunctionRecord), f.symbol ∈ keys → f.symbol ∉ new →
      program.symbols.get? f = some r → s'.Reads job subst f .invoke r)
    (hparams : ∀ callable : Callable, callable.symbol ∈ keys →
      s'.ReadsParams job subst program.symbols callable) :
    s'.Transcript job subst program (declared ++ new) where
  old := h.old.gains hg
  tracks := htracks
  declarations id role r hid hrole hr := by
    rcases List.mem_append.1 hid with hid | hid
    · exact (h.declarations id role r hid hrole hr).gains hg
    · exact hdeclarations id role r hid hrole hr
  invokes f r hf hnot hr := by
    rw [List.mem_append, not_or] at hnot
    rcases (hg.gained _).1 hf with hf | hf
    · exact (h.invokes f r hf hnot.1 hr).gains hg
    · exact hinvokes f r hf hnot.2 hr
  params callable hc := by
    rcases (hg.gained _).1 hc with hc | hc
    · exact fun p hp r hr => (h.params callable hc p hp r hr).gains hg
    · exact hparams callable hc

/-- Types may be added. -/
theorem withPool (h : s.Transcript job subst program declared) {pool : TypePool}
    (hp : TypePool.Grown s.program.pool pool) :
    (s.withPool pool).Transcript job subst program declared := by
  have hg : s.Gains (s.withPool pool) [] :=
    ⟨.refl _, hp, fun _ _ h => h, fun a => by simp [CopyState.withPool]⟩
  have hkept : (s.withPool pool).Transcript job subst program (declared ++ []) :=
    h.gains hg (h.tracks.of_frame rfl rfl) (fun _ _ _ hid => absurd hid List.not_mem_nil)
      (fun _ _ hf => absurd hf List.not_mem_nil) fun _ hc => absurd hc List.not_mem_nil
  rwa [List.append_nil] at hkept

/-- A callable that is added with its parameters. -/
theorem gains_callable (h : s.Transcript job subst program declared) {callable : Callable}
    (hg : s.Gains s' (program.symbols.withParams callable))
    (htracks : s'.Tracks program.symbols []) {new : List Symbol}
    (hdeclarations : ∀ {k : Kind} (id : SymbolId k) (role : CopyRole k) (r : Record k),
      id.symbol ∈ new → CopyRole.declared? k = some role → program.symbols.get? id = some r →
        s'.Reads job subst id role r)
    (hinvoke : ∀ (f : FunctionId) (r : FunctionRecord), callable = .fn f → f.symbol ∉ new →
      program.symbols.get? f = some r → s'.Reads job subst f .invoke r)
    (hparams : s'.ReadsParams job subst program.symbols callable) :
    s'.Transcript job subst program (declared ++ new) := by
  have hself : ∀ c : Callable, c.symbol ∈ program.symbols.withParams callable → c = callable :=
    fun c => SymbolTable.mem_withParams.1
  refine h.gains hg htracks hdeclarations (fun f r hf => hinvoke f r ?_) fun c hc => ?_
  · exact (hself (.fn f) hf).symm
  · exact hself c hc ▸ hparams

/-- A declaration that is added beside the others. -/
theorem reads_singleton {k : Kind} {id : SymbolId k} {role : CopyRole k}
    (hrole : CopyRole.declared? k = some role)
    (h : ∀ r, program.symbols.get? id = some r → s.Reads job subst id role r) {k' : Kind}
    (id' : SymbolId k') (role' : CopyRole k') (r' : Record k') (hid : id'.symbol ∈ [id.symbol])
    (hrole' : CopyRole.declared? k' = some role') (hr : program.symbols.get? id' = some r') :
    s.Reads job subst id' role' r' := by
  have hsymbol := List.mem_singleton.1 hid
  obtain rfl : k' = k := congrArg Symbol.kind hsymbol
  obtain rfl := SymbolId.symbol_inj.1 hsymbol
  obtain rfl : role = role' := Option.some.inj (hrole.symm.trans hrole')
  exact h r' hr

/-- The copy of a class may be completed with the copies of its constructors. -/
theorem close (h : s.Transcript job subst program declared) {cls : ClassId} {r : ClassRecord}
    (hr : program.symbols.get? cls = some r)
    (hopened : ∃ name, s.Holds cls fun map pool =>
      CopyJob.openedRecord (job.terms subst map pool) name r)
    (hlisted : ∀ c ∈ r.constructors ++ r.primary.toList, c.symbol ∈ s.map.keys) :
    (s.withSymbols (s.program.symbols.modify (s.map.redirect cls) fun (c : ClassRecord) =>
      { c with
        constructors := r.constructors.map s.map.redirect
        primary := r.primary.map s.map.redirect })).Transcript job subst program
        (declared ++ [cls.symbol]) := by
  obtain ⟨name, hkey, hopened⟩ := hopened
  have hcls := CopyMap.copyOf?_of_mem_keys hkey
  have hnew := (h.tracks.added _ (.inr ⟨_, hcls⟩)).1
  -- every other copy has the record that it had
  have hother : ∀ {k : Kind} {id : SymbolId k} {role : CopyRole k} {r' : Record k} f,
      s.Reads job subst id role r' → id.symbol ≠ cls.symbol →
        (s.withSymbols (s.program.symbols.modify (s.map.redirect cls) f)).Reads job subst id role
          r' := by
    rintro k id role r' f ⟨name', hkey', hrecord⟩ hne
    refine ⟨name', hkey', fun map pool hl => ?_⟩
    refine (SymbolTable.get?_modify_of_ne _ ?_ _).trans (hrecord map pool ⟨hl.kept, hl.pool⟩)
    exact h.tracks.redirect_symbol_ne hkey' hkey hne
  refine ⟨⟨h.old.symbols.modify hnew _, h.old.pool⟩, h.tracks.complete (.inr ⟨_, hcls⟩) _,
    fun {k} id role r' hid hrole hr' => ?_, fun f r' hf hnot hr' => ?_,
    fun callable hc p hp r' hr' => ?_⟩
  · by_cases heq : id.symbol = cls.symbol
    · obtain rfl : k = .cls := congrArg Symbol.kind heq
      obtain rfl := SymbolId.symbol_inj.1 heq
      obtain rfl : CopyRole.cls = role := Option.some.inj hrole
      obtain rfl : r = r' := Option.some.inj (hr.symm.trans hr')
      refine ⟨name, hkey, fun map pool hl => ?_⟩
      have hself := s.program.symbols.get?_modify_self (s.map.redirect id)
        fun (c : ClassRecord) =>
          { c with
            constructors := r.constructors.map s.map.redirect
            primary := r.primary.map s.map.redirect }
      have hl' : s.Before map pool := ⟨hl.kept, hl.pool⟩
      have hconstructors : r.constructors.map s.map.redirect = r.constructors.map map.redirect :=
        List.map_congr_left fun c hc =>
          (hl'.redirect (hlisted c (List.mem_append_left _ hc))).symm
      have hprimary : r.primary.map s.map.redirect = r.primary.map map.redirect :=
        Option.map_congr fun c hc =>
          (hl'.redirect (hlisted c (List.mem_append_right _ (Option.mem_toList.2 hc)))).symm
      rw [hopened map pool hl'] at hself
      refine hself.trans (congrArg some ?_)
      simp only [CopyJob.openedRecord, CopyRole.record, hconstructors, hprimary]
      rfl
    · refine hother _ (h.declarations id role r' ?_ hrole hr') heq
      exact (List.mem_append.1 hid).resolve_right (mt List.mem_singleton.1 heq)
  · refine hother _ (h.invokes f r' hf (fun hd => hnot (List.mem_append_left _ hd)) hr') ?_
    exact SymbolId.symbol_ne (by decide) f cls
  · exact hother _ (h.params callable hc p hp r' hr') (SymbolId.symbol_ne (by decide) p cls)

end Transcript

end CopyState

namespace CopyJob

open CopyM CopyState Node

variable {job : CopyJob σ} {program : Program} {subst : Option ParamSubst} {s : CopyState σ}
  {declared : List Symbol}

/-- A chain of steps keeps track of the symbols. -/
theorem Chains.tracks {α : Type} {m : CopyM σ α} (hm : job.Chains m [] fun _ => [])
    {base : SymbolTable} (hs : s.Tracks base []) :
    Ends m s (fun _ s' => s'.Tracks base []) (fun _ _ => True) :=
  (hm s).imp (fun _ _ hsteps => Tracks.steps hsteps hs) fun _ _ _ => trivial

/-- Run from any state of the first pass, an action adds the copies of what some trees
declare, each with its record. -/
def Transcribes (job : CopyJob σ) (subst : Option ParamSubst) (program : Program)
    (m : CopyM σ Unit) (ns : List Node) : Prop :=
  ∀ declared (s : CopyState σ), s.Transcript job subst program declared →
    Ends m s
      (fun _ s' => (∃ keys, s.Gains s' keys) ∧
        s'.Transcript job subst program (declared ++ declaredBy (preorder ns)))
      (fun _ _ => True)

/-- A call adds its callee if this is an `invoke` operator that has no copy yet. -/
theorem Over.invoke_transcript (h : job.Over program subst)
    (hs : s.Transcript job subst program declared)
    {span origin ty callee typeArgs superClass dispatch extension args}
    (halloc : program.symbols.Allocated (SymbolId.symbol (k := .fn) callee)) :
    Ends (job.mintOwn (.call span origin ty (.fn callee) typeArgs superClass dispatch extension
        args)) s
      (fun _ s' => (∃ keys, s.Gains s' keys) ∧ s'.Transcript job subst program (declared ++ []))
      (fun _ _ => True) := by
  obtain ⟨r, hr⟩ := SymbolTable.allocated_iff.1 halloc
  refine Ends.bind (Ends.of_eq_ok (record_over hs.old hr) ?_)
  refine Ends.bind (Ends.of_eq_ok (show copies s = .ok s.map s from rfl) ?_)
  split
  · refine ((h.mintInvoke_ends hs.old halloc).and
      ((job.chains_mintInvoke callee).tracks hs.tracks)).imp ?_
      fun _ _ _ => trivial
    rintro - s' ⟨⟨-, hg, -, hreads, hparams⟩, htracks⟩
    refine ⟨⟨_, hg⟩, hs.gains_callable hg htracks
      (fun _ _ _ hid => nomatch hid) (fun f r' hf _ hr' => ?_) hparams⟩
    obtain rfl := Callable.fn.inj hf
    exact hreads r' hr'
  · exact ⟨⟨[], .refl s⟩, by rwa [List.append_nil]⟩

/-- A node other than a class adds what it brings. -/
theorem Over.mintOwn_transcript (h : job.Over program subst)
    (hs : s.Transcript job subst program declared) {n : Node} (hn : n.KnownTo program)
    (hclass : ∀ span origin symbol members, n ≠ .classDecl span origin symbol members) :
    Ends (job.mintOwn n) s
      (fun _ s' => (∃ keys, s.Gains s' keys) ∧
        s'.Transcript job subst program (declared ++ declaredBy [n]))
      (fun _ _ => True) := by
  have nothing : (∃ keys, s.Gains s keys) ∧ s.Transcript job subst program (declared ++ []) :=
    ⟨⟨[], .refl s⟩, by rwa [List.append_nil]⟩
  cases n with
  | classDecl span origin symbol members => exact (hclass _ _ _ _ rfl).elim
  | functionDecl span origin symbol body =>
    refine ((h.mintFunction_ends hs.old (hn.mention (.head _))).and
      ((job.chains_mintFunction symbol).tracks hs.tracks)).imp ?_ fun _ _ _ => trivial
    rintro - s' ⟨⟨-, hg, -, hreads, hparams⟩, htracks⟩
    refine ⟨⟨_, hg⟩, hs.gains_callable hg htracks
      (Transcript.reads_singleton rfl hreads) (fun f r hf hnot => ?_) hparams⟩
    exact absurd (Callable.fn.inj hf ▸ .head _) hnot
  | constructorDecl span origin symbol body =>
    obtain ⟨r, hr⟩ := SymbolTable.allocated_iff.1 (hn.mention (.head _))
    refine ((h.mintConstructor_ends hs.old hr).and
      ((job.chains_mintConstructor symbol).tracks hs.tracks)).imp ?_ fun _ _ _ => trivial
    rintro - s' ⟨⟨-, hg, -, hreads, hparams⟩, htracks⟩
    refine ⟨⟨_, hg⟩, hs.gains_callable hg htracks
      (Transcript.reads_singleton rfl fun r' hr' => ?_) (fun f r hf => nomatch hf) hparams⟩
    exact Option.some.inj (hr.symm.trans hr') ▸ hreads
  | variableDecl span origin symbol init =>
    refine ((h.mintVariable_ends hs.old (hn.mention (.head _))).and
      ((job.chains_mintVariable symbol).tracks hs.tracks)).imp ?_ fun _ _ _ => trivial
    rintro - s' ⟨⟨-, hg, hreads⟩, htracks⟩
    refine ⟨⟨_, hg⟩, hs.gains hg htracks
      (Transcript.reads_singleton rfl hreads) (fun f r hf => ?_) fun c hc => ?_⟩
    · exact absurd (List.mem_singleton.1 hf) (SymbolId.symbol_ne (by decide) f symbol)
    · exact absurd (List.mem_singleton.1 hc) (c.symbol_ne (by decide) (by decide) symbol)
  | call span origin ty callee typeArgs superClass dispatch extension args =>
    cases callee with
    | ctor callee => exact nothing
    | fn callee => exact h.invoke_transcript hs (hn.mention (.head _))
  | callableRef | returnFrom | getValue | setVariable | block | const | «when» | whileLoop
  | typeOp => exact nothing

/-- Trees are copied one after the other. -/
theorem transcribes_forM {ns : List Node}
    (h : ∀ n ∈ ns, Transcribes job subst program (job.copyDeclarations n) [n]) :
    Transcribes job subst program (ForM.forM ns job.copyDeclarations) ns := by
  intro declared s hs
  refine Ends.forM (I := fun done (s' : CopyState σ) => (∃ keys, s.Gains s' keys) ∧
    s'.Transcript job subst program (declared ++ declaredBy (preorder done))) ns
    ⟨⟨[], .refl s⟩, ?_⟩ ?_
  · rwa [show declaredBy (preorder []) = [] from rfl, List.append_nil]
  · rintro done n rest hsplit s₁ ⟨⟨keys, hg⟩, hs₁⟩
    refine (h n (hsplit ▸ List.mem_append_right _ (.head _)) _ s₁ hs₁).imp ?_ fun _ _ h => h
    rintro - s₂ ⟨⟨keys', hg'⟩, hs₂⟩
    rw [List.append_assoc, declaredBy, declaredBy, ← List.filterMap_append, ← preorder_append]
      at hs₂
    exact ⟨⟨_, hg.trans hg'⟩, hs₂⟩

/-- **The first pass writes the records that the roles give.** -/
theorem Over.transcribes_copyDeclarations (h : job.Over program subst) (n : Node)
    (hn : ∀ m ∈ n :: n.descendants, m.KnownTo program) :
    Transcribes job subst program (job.copyDeclarations n) [n] := by
  induction n using Node.induction_children with
  | step n ih =>
    have below : Transcribes job subst program (ForM.forM n.children job.copyDeclarations)
        n.children :=
      transcribes_forM fun c hc => ih c hc fun m hm => hn m (.tail _ (descendants_of_child hc hm))
    intro declared s hs
    rw [copyDeclarations_eq, preorder_singleton, ← preorder_children]
    split
    · rename_i span origin cls members
      obtain ⟨r, hr⟩ := SymbolTable.allocated_iff.1 ((hn _ (.head _)).mention (.head _))
      refine Ends.bind (((h.openClass_ends hs.old hr).and
        ((job.chains_openClass cls).tracks hs.tracks)).imp
        (fun opened s₁ ⟨⟨_, hg₁, hopened, hnew, hcopy, name, hholds⟩, htracks⟩ => ?_)
        fun _ _ _ => trivial)
      have hs₁ : s₁.Transcript job subst program (declared ++ []) := by
        refine hs.gains hg₁ htracks (fun _ _ _ hid => nomatch hid)
          (fun f r hf => ?_) fun c hc => ?_
        · exact absurd (List.mem_singleton.1 hf) (SymbolId.symbol_ne (by decide) f cls)
        · exact absurd (List.mem_singleton.1 hc) (c.symbol_ne (by decide) (by decide) cls)
      refine Ends.bind ((below _ s₁ hs₁).imp (fun _ s₂ ⟨⟨keys, hg₂⟩, hs₂⟩ => ?_) fun _ _ h => h)
      rw [hopened, ← hcopy, ← hg₂.redirect hholds.key]
      refine (closeClass_ends cls r (s₂.map.redirect cls) s₂).imp ?_ fun _ _ _ => trivial
      rintro - s₃ ⟨hlisted, rfl⟩
      have hg := hg₁.trans hg₂
      -- the class that is completed was not there before
      have hnew' : ¬ s.program.symbols.Allocated (s₂.map.redirect cls).symbol := by
        rwa [hg₂.redirect hholds.key, hcopy]
      refine ⟨⟨_, ⟨hg.symbols.modify hnew' _, hg.pool, hg.kept, hg.gained⟩⟩, ?_⟩
      refine (hs₂.close hr ⟨name, hholds.gains hg₂⟩ hlisted).of_mem_iff fun a => ?_
      simp only [List.append_nil, List.mem_append, declaredBy, List.filterMap_cons, declared?,
        List.mem_cons]
      tauto
    · rename_i hclass
      refine Ends.bind ((h.mintOwn_transcript hs (hn n (.head _)) hclass).imp ?_ fun _ _ h => h)
      rintro - s₁ ⟨⟨keys, hg₁⟩, hs₁⟩
      refine (below _ s₁ hs₁).imp ?_ fun _ _ h => h
      rintro - s₂ ⟨⟨keys', hg₂⟩, hs₂⟩
      rw [List.append_assoc, declaredBy, declaredBy, ← List.filterMap_append,
        List.singleton_append] at hs₂
      exact ⟨⟨_, hg₁.trans hg₂⟩, hs₂⟩

end CopyJob

/-- On what terms a copy was made, as its result tells. -/
def Copied.terms (copied : Copied) (target : FunctionId) (options : CopyOptions)
    (τ : TypeId → TypeId) : CopyTerms := ⟨target, options.supertypes, copied.map.toRenaming τ⟩

namespace Copier

open CopyJob CopyState
open Node (declaredBy bringsAll)

variable {program : Program} {subst : Option ParamSubst}

/-- A copy starts with nothing copied. -/
theorem transcript_start (job : CopyJob σ) (program : Program) (memory : σ) :
    ({ program, memory } : CopyState σ).Transcript job subst program [] where
  old := ⟨.refl _, .refl _⟩
  tracks := .start _ rfl
  declarations _ _ _ hid := nomatch hid
  invokes f _ hf := absurd hf (CopyMap.not_mem_keys_empty f.symbol)
  params c hc := absurd hc (CopyMap.not_mem_keys_empty c.symbol)

/-- A copy that succeeds has written the records that the roles give. -/
theorem actions_transcript (target : FunctionId) (options : CopyOptions) {root : Node}
    (inlined : String) (memory : σ) (hclosed : program.Closed) (hroot : root.ClosedIn program)
    (hwithin : ∀ s ∈ subst, s.Within program.pool) :
    Ends ((ofParams target subst options).actions root inlined) { program, memory }
      (fun copied s' => copied.map = s'.map ∧
        s'.Transcript ((ofParams target subst options).job program inlined) subst program
          (declaredBy root.descendants))
      (fun _ _ => True) := by
  have hover := over_job (σ := σ) target options inlined hclosed hwithin
  refine actions_ends _ (fun _ => ?_) fun _ => trivial
  have hfirst := transcribes_forM (fun c hc => hover.transcribes_copyDeclarations c fun m hm =>
    hroot.below (Node.descendants_of_child hc hm)) [] { program, memory } (transcript_start _ _ _)
  refine Ends.bind (hfirst.imp (fun _ s₁ ⟨_, hs₁⟩ => ?_) fun _ _ h => h)
  rw [List.nil_append, Node.preorder_children] at hs₁
  refine (secondPass_ends _ hover root (fun n hn => hroot.below hn) s₁ hs₁.old.pool).imp ?_
    fun _ _ _ => trivial
  rintro copied s₂ ⟨hmap, pool, rfl, hp, -⟩
  exact ⟨hmap, hs₁.withPool hp⟩

/-- **The record of every copy is what its role gives.**  What it says of other symbols and
of types is exchanged as everywhere in the copy, and the rest depends on the role and the
copied record alone, but for generated names. -/
theorem copy_records {program' : Program} {memory memory' : σ} {target : FunctionId}
    {options : CopyOptions} {root : Node} {inlined : String} {copied : Copied}
    (hclosed : program.Closed) (hroot : root.ClosedIn program)
    (hwithin : ∀ s ∈ subst, s.Within program.pool)
    (hcopy : (ofParams target subst options).copy root inlined (program, memory) =
      .ok copied (program', memory'))
    {k : Kind} {id : SymbolId k} {role : CopyRole k}
    (hplays : root.Plays program.symbols id role) {r : Record k}
    (hr : program.symbols.get? id = some r) :
    ∃ name, program'.symbols.get? (copied.map.redirect id) =
      some (role.record (copied.terms target options (outcome subst program'.pool)) name r) := by
  have hactions := actions_of_copy hcopy
  obtain ⟨-, htranscript⟩ := (actions_transcript target options inlined memory hclosed hroot
    hwithin).ok_of_eq hactions
  obtain ⟨-, -, haccount⟩ := (actions_account options inlined memory hclosed
    (target_allocated hactions) hroot hwithin).ok_of_eq hactions
  have hreads : CopyState.Reads { program := program', memory := memory', map := copied.map }
      ((ofParams target subst options : Copier σ).job program inlined) subst id role r := by
    cases hplays with
    | declared hid hrole => exact htranscript.declarations _ _ r hid hrole hr
    | invoke hid hnot =>
      refine htranscript.invokes _ r ((haccount.keys _).2 ?_) hnot hr
      exact Node.mem_bringsAll.2 (.inr (.inl ⟨_, hid, rfl⟩))
    | param hcallable hid => exact htranscript.params _ ((haccount.keys _).2 hcallable) _ hid r hr
  exact Transcript.record_of_reads hreads (.refl _)

end Copier

end Graft
