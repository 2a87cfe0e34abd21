/-
# The check never fails

The check at the end of a copy looks for a symbol that was copied and is still
mentioned.  Over a closed program and tree it finds none, for every key of the map is an
old symbol and the copied tree mentions only images (`CopyState.Tracks.no_dangling`).  The
passes before the check do not report such a symbol either
(`CopyJob.takes_copyDeclarations`).  So a copy ends in the same way, and leaves the same
program behind, whether it is checked or not (`Copier.copy_checked_eq`).
-/

import Graft.Proofs.Copy.Names

namespace Graft

variable {σ : Type}

/-- A tree that mentions no original passes the check. -/
theorem CopyMap.check_of_dangling?_eq_none {map : CopyMap} {root : Node}
    (h : map.dangling? root = none) : map.check root = .ok () := by
  rw [check, h]

/-- **What the check looks for:** a mention, below the root, of a symbol that was copied. -/
theorem CopyMap.check_eq_ok_iff {map : CopyMap} {root : Node} :
    map.check root = .ok () ↔ ∀ n ∈ root.descendants, ∀ a ∈ n.mentions, a ∉ map.keys := by
  have hdangling : map.dangling? root = none ↔
      ∀ n ∈ root.descendants, ∀ a ∈ n.mentions, a ∉ map.keys := by
    simp only [dangling?_eq, List.findSome?_eq_none_iff, List.find?_eq_none, isCopied_iff]
  rw [← hdangling, check]
  cases map.dangling? root with
  | none => exact iff_of_true rfl rfl
  | some a => exact iff_of_false nofun nofun

namespace Copier

open CopyM CopyJob CopyState
open ParamSubst (outcome)

variable {program : Program} {subst : Option ParamSubst}

/-- The second pass gives the rebuilt tree if the check has nothing to say against it. -/
theorem secondPass_of_ok {copier : Copier σ} {job : CopyJob σ} {root copy : Node}
    {s s' : CopyState σ} (h : job.redirectReferences root s = .ok copy s')
    (hcheck : s'.map.check copy = .ok ()) :
    copier.secondPass job root s = .ok ⟨copy, s'.map⟩ s' := by
  have hcopies : (copies : CopyM σ CopyMap) s' = .ok s'.map s' := rfl
  refine (Ends.bind_of_ok h).trans ((Ends.bind_of_ok hcopies).trans ?_)
  rw [hcheck]
  cases copier.options.checked <;> rfl

/-- After the first pass, the tree is rebuilt and passes the check. -/
theorem redirectReferences_check {job : CopyJob σ} (h : job.Over program subst) {root : Node}
    (hroot : root.ClosedIn program) (memory : σ) :
    Ends (forM root.children job.copyDeclarations) { program, memory }
      (fun _ s => ∃ copy s', job.redirectReferences root s = .ok copy s' ∧
        s'.map.check copy = .ok ())
      (fun e _ => ∀ a, e ≠ .rejected (.dangling a)) := by
  refine ((h.firstPass_ends hroot memory).and (job.takes_firstPass root _)).imp ?_
    fun _ _ h => h.2.1
  rintro - s ⟨⟨-, haccount, hnone⟩, -⟩
  have hrebuild := h.substitutes_redirectReferences root
    (fun n hn => (hroot.below hn).types) s rfl haccount.old.pool
  cases hr : job.redirectReferences root s with
  | error e s' => exact (hrebuild.err_of_eq hr).elim
  | ok copy s' =>
    obtain ⟨pool, rfl, -, hv⟩ := hrebuild.ok_of_eq hr
    refine ⟨copy, _, rfl, ?_⟩
    rw [(hv pool (.refl pool)).1]
    exact CopyMap.check_of_dangling?_eq_none (hnone _)

/-- The passes end with a tree that passes the check, or stop for another reason. -/
theorem passes_check (copier : Copier σ) {job : CopyJob σ} (h : job.Over program subst)
    {root : Node} (hroot : root.ClosedIn program) (memory : σ) :
    Ends (copier.passes job root) { program, memory }
      (fun copied _ => copied.map.check copied.root = .ok ())
      (fun e _ => ∀ a, e ≠ .rejected (.dangling a)) := by
  refine Ends.bind ((redirectReferences_check h hroot memory).imp ?_ fun _ _ he => he)
  rintro - s ⟨copy, s', hcopy, hcheck⟩
  exact Ends.of_eq_ok (secondPass_of_ok hcopy hcheck) hcheck

/-- Whether the copy is checked makes no difference to the passes. -/
theorem passes_eq (copier copier' : Copier σ) {job : CopyJob σ} (h : job.Over program subst)
    {root : Node} (hroot : root.ClosedIn program) (memory : σ) :
    copier.passes job root { program, memory } =
      copier'.passes job root { program, memory } := by
  have hfirst := redirectReferences_check h hroot memory
  cases hm : forM root.children job.copyDeclarations { program, memory } with
  | ok u s =>
    obtain ⟨copy, s', hcopy, hcheck⟩ := hfirst.ok_of_eq hm
    refine (Ends.bind_of_ok hm).trans (.trans ?_ (Ends.bind_of_ok hm).symm)
    rw [secondPass_of_ok hcopy hcheck, secondPass_of_ok hcopy hcheck]
  | error e s => exact (Ends.bind_of_error hm).trans (Ends.bind_of_error hm).symm

/-- **Checking a copy changes nothing.**  Over a closed program and tree, a copy that is
checked ends as one that is not, with the same result and the same symbols, types and
names left behind.  Wherever the passes finish, the check accepts what they made: nothing
below the root of the copied tree mentions a symbol that was copied.  So no copy stops
with a dangling mention. -/
theorem copy_checked_eq {target : FunctionId} {supertypes : SupertypeRule} {root : Node}
    {inlined : String} {memory : σ} (hclosed : program.Closed) (hroot : root.ClosedIn program)
    (hwithin : ∀ s ∈ subst, s.Within program.pool) :
    (ofParams target subst ⟨supertypes, true⟩).copy root inlined (program, memory) =
      (ofParams target subst ⟨supertypes, false⟩).copy root inlined (program, memory) ∧
    ∀ checked,
      (∀ copied s', (ofParams target subst ⟨supertypes, checked⟩).copy root inlined
          (program, memory) = .ok copied s' →
        copied.map.check copied.root = .ok () ∧
          ∀ n ∈ copied.root.descendants, ∀ a ∈ n.mentions, a ∉ copied.map.keys) ∧
      ∀ e s', (ofParams target subst ⟨supertypes, checked⟩).copy root inlined
          (program, memory) = .error e s' →
        ∀ a, e ≠ .rejected (.dangling a) := by
  have hover : ∀ options, ((ofParams target subst options : Copier σ).job program inlined).Over
      program subst := fun options => over_job target options inlined hclosed hwithin
  constructor
  · have hactions : (ofParams target subst ⟨supertypes, true⟩).actions root inlined
          { program, memory } =
        (ofParams target subst ⟨supertypes, false⟩).actions root inlined { program, memory } := by
      rw [actions_eq, actions_eq]
      exact if_congr Iff.rfl (passes_eq _ _ (hover ⟨supertypes, true⟩) hroot memory) rfl
    unfold copy
    dsimp only
    rw [hactions]
  · intro checked
    have hends := copy_ends (actions_ends (ofParams target subst ⟨supertypes, checked⟩)
      (fun _ => passes_check _ (hover ⟨supertypes, checked⟩) hroot memory) fun _ _ he => nomatch he)
    refine ⟨fun copied s' hcopy => ?_, fun e s' hcopy => hends.err_of_eq hcopy⟩
    have hcheck := hends.ok_of_eq hcopy
    exact ⟨hcheck, CopyMap.check_eq_ok_iff.1 hcheck⟩

/-- The sample tree has a copy, it is the same whether it is checked or not, and the check
accepts it. -/
theorem copy_checked_eq_sample :
    ∃ copied s', (ofParams ⟨0⟩ (some sampleSubst) ⟨.substitute, false⟩).copy sampleTree "block"
        (sampleProgram, ()) = .ok copied s' ∧
      (ofParams ⟨0⟩ (some sampleSubst) ⟨.substitute, true⟩).copy sampleTree "block"
        (sampleProgram, ()) = .ok copied s' ∧
      copied.map.check copied.root = .ok () := by
  have hok : Succeeds ((ofParams ⟨0⟩ (some sampleSubst) ⟨.substitute, false⟩).copy sampleTree
      "block") (sampleProgram, ()) = true := by decide +kernel
  obtain ⟨copied, s', hcopy⟩ := succeeds_iff.1 hok
  have hsame : (ofParams ⟨0⟩ (some sampleSubst) ⟨.substitute, true⟩).copy sampleTree "block"
        (sampleProgram, ()) =
      (ofParams ⟨0⟩ (some sampleSubst) ⟨.substitute, false⟩).copy sampleTree "block"
        (sampleProgram, ()) :=
    (copy_checked_eq (by decide +kernel) (by decide +kernel) (by decide +kernel)).1
  have hcheck := (((copy_checked_eq (by decide +kernel) (by decide +kernel)
    (by decide +kernel)).2 false).1 copied s' hcopy).1
  exact ⟨copied, s', hcopy, hsame.trans hcopy, hcheck⟩

end Copier

end Graft
