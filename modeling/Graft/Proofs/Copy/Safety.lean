/-
# Copies of closed trees are safe

Over a closed program, a copy of a closed tree gives a closed tree or rejects it, and the
program it leaves behind is closed either way (`Copier.actions_safe`).  So it can go on:
copies of the trees at hand, the outputs of earlier copies among them, never meet a symbol
or type that is not there, and all these trees can be written (`Copier.session_safe`).
-/

import Graft.Proofs.Copy.Checking
import Graft.Proofs.Copy.Closure
import Graft.Proofs.Copy.Coverage
import Graft.Proofs.Copy.Renaming
import Graft.Proofs.Tree.Dump

namespace Graft

variable {σ : Type}

namespace ParamSubst

variable {subst : Option ParamSubst} {pool : TypePool} {t t' : TypeId}

/-- A type that a type of the pool settles to is in the pool. -/
theorem Settles.has (h : Settles subst pool t t') (hs : ∀ s ∈ subst, s.Within pool)
    (ht : pool.Has t) (ho : pool.Ordered) : pool.Has t' :=
  ((applyOrKeep_total hs ht ho ()).ok_of_eq (h Unit ())).1

end ParamSubst

namespace Node

variable {map : CopyMap} {τ : TypeId → TypeId} {n : Node}

/-- The types that are substituted are types of the node. -/
theorem substituted_subset {t : TypeId} (ht : t ∈ n.substituted map) : t ∈ n.types := by
  cases n with
  | callableRef | returnFrom =>
    rw [substituted] at ht
    split at ht
    · exact ht
    · cases ht
  | _ => exact ht

/-- A relabelled node holds types that the node holds, or outcomes of those that are
exchanged. -/
theorem mem_types_relabel {t : TypeId} (ht : t ∈ (n.relabel map τ).types) :
    t ∈ n.types ∨ ∃ u ∈ n.substituted map, t = τ u := by
  by_cases hmoves : n.Moves map.keys
  · rw [relabel_of_moves hmoves, types_rename] at ht
    obtain ⟨u, hu, rfl⟩ := List.mem_map.1 ht
    exact .inr ⟨u, substituted_of_moves hmoves ▸ hu, rfl⟩
  · rw [relabel_of_not_moves hmoves] at ht
    exact .inl ht

end Node

namespace Copier

open CopyM CopyJob CopyState

variable {program : Program} {subst : Option ParamSubst}

/-- The copied tree is closed in a program that has the images of the symbols and in which
the types have settled. -/
theorem Relabels.closedIn {later : Program} {root : Node} {copied : Copied}
    (h : Relabels root subst later.pool copied) (hroot : root.ClosedIn program)
    (hw : program.Wider later) (hclosed : later.Closed)
    (hwithin : ∀ s ∈ subst, s.Within later.pool)
    (hcopies : ∀ a c, copied.map.copyOf? a = some c → later.symbols.Allocated c) :
    copied.root.ClosedIn later := by
  have himage : ∀ a, later.symbols.Allocated a → later.symbols.Allocated (copied.map.image a) := by
    intro a ha
    cases hc : copied.map.copyOf? a with
    | some c =>
      rw [CopyMap.image_of_copyOf? hc]
      exact hcopies a c hc
    | none => rwa [CopyMap.image_of_not_copied hc]
  refine List.forall_mem_cons.2 ⟨?_, fun m hm => ?_⟩
  · -- the root keeps its own fields
    have hself := (hroot root (.head _)).wider hw
    rw [h.root_eq]
    exact ⟨fun a ha => hself.symbols a (Node.symbols_withChildren .. ▸ ha),
      fun t ht => hself.types t (Node.types_withChildren .. ▸ ht)⟩
  · obtain ⟨n, hn, rfl⟩ := h.mem_descendants.1 hm
    have hnode := (hroot.below hn).wider hw
    rw [Node.transform_eq]
    refine ⟨fun a ha => ?_, fun t ht => ?_⟩
    · rw [Node.symbols_withChildren] at ha
      rcases Node.mem_symbols_relabel ha with ⟨b, hb, rfl⟩ | ha
      · exact himage b (hnode.mention hb)
      · exact hnode.symbols a ha
    · rw [Node.types_withChildren] at ht
      rcases Node.mem_types_relabel ht with ht | ⟨u, hu, rfl⟩
      · exact hnode.types t ht
      · refine (h.settles n hn u hu).has hwithin (hnode.types u ?_) hclosed.ordered
        exact Node.substituted_subset hu

/-- **One copy is safe.**  It gives a closed tree or rejects the tree it is given, and the
program is closed afterwards. -/
theorem actions_safe {target : FunctionId} (options : CopyOptions) {root : Node}
    (inlined : String) (memory : σ) (hclosed : program.Closed) (htop : program.pool.Has .any)
    (htarget : program.symbols.Allocated target.symbol) (hroot : root.ClosedIn program)
    (hwithin : ∀ s ∈ subst, s.Within program.pool) :
    Ends ((ofParams target subst options).actions root inlined) { program, memory }
      (fun copied s' => s'.program.Closed ∧ program.Wider s'.program ∧
        copied.root.ClosedIn s'.program)
      (fun e s' => s'.program.Closed ∧ program.Wider s'.program ∧ ∃ why, e = .rejected why) := by
  have hover := over_job (σ := σ) target options inlined hclosed hwithin
  refine actions_ends _ (fun _ => ?_) fun h => absurd htarget h
  have hstart : ({ program, memory } : CopyState σ).Intact
      ((ofParams target subst options).job program inlined) subst :=
    ⟨hclosed, fun a c hc => absurd hc CopyMap.copyOf?_empty_ne, htarget, htop, hwithin, rfl⟩
  have hfirst : Safe ((ofParams target subst options).job program inlined) subst
      (forM root.children ((ofParams target subst options).job program inlined).copyDeclarations)
      { program, memory } fun _ _ => True := by
    refine Safe.forM hstart fun c hc s hs hw => safe_copyDeclarations hs c fun m hm => ?_
    exact (hroot.below (Node.descendants_of_child hc hm)).wider hw
  refine Ends.bind ((Ends.and hfirst ((firstPass_steps _ root _).and
    (redirectReferences_check hover hroot memory))).imp ?_
      fun _ _ ⟨⟨hs, hw, hwhy⟩, _⟩ => ⟨hs.closed, hw, hwhy⟩)
  rintro - s₁ ⟨⟨hs₁, hw₁, -⟩, hsteps, copy, s₂, hcopy, hcheck⟩
  -- the second pass ends with a relabelled tree and nothing but types added
  have hsecond : (ofParams target subst options).secondPass _ root s₁ = _ :=
    secondPass_of_ok hcopy hcheck
  obtain ⟨hmap, pool, rfl, hg, hrelabels⟩ := (secondPass_ends _ hover root
    (fun n hn => hroot.below hn) s₁ (Steps.pool_grown rfl hsteps)).ok_of_eq hsecond
  have hwider : s₁.program.Wider (s₁.withPool pool).program := Program.wider_withPool hg
  have hs₂ := hs₁.wider (hs₁.closed.withPool hg) hwider
  refine Ends.of_eq_ok hsecond ⟨hs₂.closed, hw₁.trans hwider, ?_⟩
  exact hrelabels.closedIn hroot (hw₁.trans hwider) hs₂.closed hs₂.within hs₂.copies

/-! ### Calls in a row -/

/-- What calls lead to that are made one after the other on a program and some trees.  Each
call copies a tree at hand, or replaces it by its copy, into a function of the program and
under a substitution whose replacements the program has.  The program that it leaves behind
is gone on with however it ends, and the trees that it gives are at hand besides the others. -/
inductive Session (program : Program) (trees : List Node) : Program → List Node → Prop
  | start : Session program trees program trees
  | copy {before after : Program} {given : List Node} {target : FunctionId}
      {subst : Option ParamSubst} {options : CopyOptions} {root : Node} {inlined : String}
      {copied : Copied} (h : Session program trees before given) (hroot : root ∈ given)
      (htarget : before.symbols.Allocated target.symbol)
      (hwithin : ∀ s ∈ subst, s.Within before.pool)
      (hcopy : (ofParams target subst options).copy root inlined (before, ()) =
        .ok copied (after, ())) :
      Session program trees after (copied.root :: given)
  | failedCopy {before after : Program} {given : List Node} {target : FunctionId}
      {subst : Option ParamSubst} {options : CopyOptions} {root : Node} {inlined : String}
      {e : CopyFault} (h : Session program trees before given) (hroot : root ∈ given)
      (htarget : before.symbols.Allocated target.symbol)
      (hwithin : ∀ s ∈ subst, s.Within before.pool)
      (hcopy : (ofParams target subst options).copy root inlined (before, ()) =
        .error e (after, ())) :
      Session program trees after given
  | replace {before after : Program} {given : List Node} {target : FunctionId}
      {subst : Option ParamSubst} {options : CopyOptions} {root root' : Node} {inlined : String}
      {map : CopyMap} (h : Session program trees before given) (hroot : root ∈ given)
      (htarget : before.symbols.Allocated target.symbol)
      (hwithin : ∀ s ∈ subst, s.Within before.pool)
      (hreplace : (ofParams target subst options).replace inlined (root, before, ()) =
        .ok map (root', after, ())) :
      Session program trees after (root' :: given)
  | failedReplace {before after : Program} {given : List Node} {target : FunctionId}
      {subst : Option ParamSubst} {options : CopyOptions} {root root' : Node} {inlined : String}
      {e : CopyFault} (h : Session program trees before given) (hroot : root ∈ given)
      (htarget : before.symbols.Allocated target.symbol)
      (hwithin : ∀ s ∈ subst, s.Within before.pool)
      (hreplace : (ofParams target subst options).replace inlined (root, before, ()) =
        .error e (root', after, ())) :
      Session program trees after (root' :: given)

/-- What a copy leaves behind, in terms of its actions. -/
theorem copy_safe {target : FunctionId} (options : CopyOptions) {root : Node}
    (inlined : String) (memory : σ) (hclosed : program.Closed) (htop : program.pool.Has .any)
    (htarget : program.symbols.Allocated target.symbol) (hroot : root.ClosedIn program)
    (hwithin : ∀ s ∈ subst, s.Within program.pool) :
    Ends ((ofParams target subst options).copy root inlined) (program, memory)
      (fun copied s' => s'.1.Closed ∧ program.Wider s'.1 ∧ copied.root.ClosedIn s'.1)
      (fun e s' => s'.1.Closed ∧ program.Wider s'.1 ∧ ∃ why, e = .rejected why) := by
  have h := actions_safe options inlined memory hclosed htop htarget hroot hwithin
  unfold Ends copy
  dsimp only
  cases hm : (ofParams target subst options).actions root inlined { program, memory } with
  | ok copied s => exact h.ok_of_eq hm
  | error e s => exact h.err_of_eq hm

/-- A tree is replaced by its copy, or stays as it is. -/
theorem replace_safe {target : FunctionId} (options : CopyOptions) {root : Node}
    (inlined : String) (memory : σ) (hclosed : program.Closed) (htop : program.pool.Has .any)
    (htarget : program.symbols.Allocated target.symbol) (hroot : root.ClosedIn program)
    (hwithin : ∀ s ∈ subst, s.Within program.pool) :
    Ends ((ofParams target subst options).replace inlined) (root, program, memory)
      (fun _ s' => s'.2.1.Closed ∧ program.Wider s'.2.1 ∧ s'.1.ClosedIn s'.2.1)
      (fun e s' => s'.2.1.Closed ∧ program.Wider s'.2.1 ∧ s'.1.ClosedIn s'.2.1 ∧
        ∃ why, e = .rejected why) := by
  have h := copy_safe options inlined memory hclosed htop htarget hroot hwithin
  unfold Ends replace
  dsimp only
  cases hm : (ofParams target subst options).copy root inlined (program, memory) with
  | ok copied s => exact h.ok_of_eq hm
  | error e s =>
    obtain ⟨hclosed', hw, hwhy⟩ := h.err_of_eq hm
    exact ⟨hclosed', hw, hroot.wider hw, hwhy⟩

/-- What a session keeps: the program stays closed and the trees at hand are closed in it. -/
theorem Session.closed {trees given : List Node} {after : Program}
    (h : Session program trees after given) (hclosed : program.Closed)
    (htop : program.pool.Has .any) (htrees : ∀ root ∈ trees, root.ClosedIn program) :
    after.Closed ∧ after.pool.Has .any ∧ ∀ root ∈ given, root.ClosedIn after := by
  induction h with
  | start => exact ⟨hclosed, htop, htrees⟩
  | copy _ hroot htarget hwithin hcopy ih =>
    obtain ⟨hbefore, htop, hgiven⟩ := ih
    obtain ⟨hafter, hw, hcopied⟩ := (copy_safe _ _ () hbefore htop htarget (hgiven _ hroot)
      hwithin).ok_of_eq hcopy
    exact ⟨hafter, hw.has _ htop, List.forall_mem_cons.2 ⟨hcopied, fun m hm =>
      (hgiven m hm).wider hw⟩⟩
  | failedCopy _ hroot htarget hwithin hcopy ih =>
    obtain ⟨hbefore, htop, hgiven⟩ := ih
    obtain ⟨hafter, hw, -⟩ := (copy_safe _ _ () hbefore htop htarget (hgiven _ hroot)
      hwithin).err_of_eq hcopy
    exact ⟨hafter, hw.has _ htop, fun m hm => (hgiven m hm).wider hw⟩
  | replace _ hroot htarget hwithin hreplace ih =>
    obtain ⟨hbefore, htop, hgiven⟩ := ih
    obtain ⟨hafter, hw, hreplaced⟩ := (replace_safe _ _ () hbefore htop htarget (hgiven _ hroot)
      hwithin).ok_of_eq hreplace
    exact ⟨hafter, hw.has _ htop, List.forall_mem_cons.2 ⟨hreplaced, fun m hm =>
      (hgiven m hm).wider hw⟩⟩
  | failedReplace _ hroot htarget hwithin hreplace ih =>
    obtain ⟨hbefore, htop, hgiven⟩ := ih
    obtain ⟨hafter, hw, hkept, -⟩ := (replace_safe _ _ () hbefore htop htarget (hgiven _ hroot)
      hwithin).err_of_eq hreplace
    exact ⟨hafter, hw.has _ htop, List.forall_mem_cons.2 ⟨hkept, fun m hm =>
      (hgiven m hm).wider hw⟩⟩

/-- **Copies of closed trees are safe.**  Start from a closed program, which has the top type
as every pool does, and closed trees, and copy the trees at hand in any order, the outputs of
earlier copies among them.  Then the program is closed at any time, whether the last copy
succeeded or failed, the trees at hand are closed in it, and all of them can be written.
Every further copy of one of them, in place or not, gives a tree or rejects it, but never
meets a symbol or type that is not there. -/
theorem session_safe {trees given : List Node} {after : Program} (hclosed : program.Closed)
    (htop : program.pool.Has .any) (htrees : ∀ root ∈ trees, root.ClosedIn program)
    (h : Session program trees after given) :
    after.Closed ∧
    (∀ root ∈ given, root.ClosedIn after ∧ ∃ text, after.dump root = .ok text) ∧
    ∀ root ∈ given, ∀ (target : FunctionId) (subst : Option ParamSubst) (options : CopyOptions)
      (inlined : String), after.symbols.Allocated target.symbol →
      (∀ s ∈ subst, s.Within after.pool) →
      Ends ((ofParams target subst options).copy root inlined) (after, ())
        (fun _ _ => True) (fun e _ => ∃ why, e = .rejected why) ∧
      Ends ((ofParams target subst options).replace inlined) (root, after, ())
        (fun _ _ => True) (fun e _ => ∃ why, e = .rejected why) := by
  obtain ⟨hafter, htop', hgiven⟩ := h.closed hclosed htop htrees
  refine ⟨hafter, fun root hroot => ⟨hgiven root hroot, hafter.exists_dump (hgiven root hroot)⟩,
    fun root hroot target subst options inlined htarget hwithin => ⟨?_, ?_⟩⟩
  · exact (copy_safe options inlined () hafter htop' htarget (hgiven root hroot) hwithin).imp
      (fun _ _ _ => trivial) fun _ _ h => h.2.2
  · exact (replace_safe options inlined () hafter htop' htarget (hgiven root hroot) hwithin).imp
      (fun _ _ _ => trivial) fun _ _ h => h.2.2.2

/-- The sample tree is copied, and its copy can be written. -/
theorem session_safe_sample :
    ∃ copied program', (ofParams ⟨0⟩ (some sampleSubst) {}).copy sampleTree "block"
        (sampleProgram, ()) = .ok copied (program', ()) ∧ program'.Closed ∧
      ∃ text, program'.dump copied.root = .ok text := by
  have hok : Succeeds ((ofParams ⟨0⟩ (some sampleSubst) {}).copy sampleTree "block")
      (sampleProgram, ()) = true := by decide +kernel
  have htrees : ∀ root ∈ [sampleTree], root.ClosedIn sampleProgram := by
    rintro root hroot
    obtain rfl := List.mem_singleton.1 hroot
    decide +kernel
  obtain ⟨copied, ⟨program', ⟨⟩⟩, hcopy⟩ := succeeds_iff.1 hok
  obtain ⟨hclosed, hall, -⟩ := session_safe (by decide +kernel) (by decide +kernel) htrees
    (.copy .start (.head _) (by decide +kernel) (by decide +kernel) hcopy)
  exact ⟨copied, program', hcopy, hclosed, (hall copied.root (.head _)).2⟩

end Copier

end Graft
