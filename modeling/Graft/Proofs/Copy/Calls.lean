/-
# The calls of the substitutor

A substitutor may remember what it was asked and answer differently the next time, so the calls that
a copy makes matter, and their order.  They are written down in a log if the substitutor is made to
keep one (`Substitutor.logged`), which changes nothing else.  The log of a copy that succeeds lists
the types of the records below the root in preorder and then those of the nodes in postorder, each
of them once and at an invariant position (`Copier.copy_calls`).
-/

import Graft.Proofs.Copy.Journal
import Graft.Proofs.Copy.Parallel

namespace Graft

variable {σ : Type}

/-- The substitutor that also notes its calls. -/
def Substitutor.logged (f : Substitutor σ) : Substitutor (σ × List (TypeId × Variance)) where
  substitute t v := fun (pool, memory, calls) =>
    match f.substitute t v (pool, memory) with
    | .ok t' (pool, memory) => .ok t' (pool, memory, calls ++ [(t, v)])
    | .error e (pool, memory) => .error e (pool, memory, calls ++ [(t, v)])

/-- The copier whose substitutor notes its calls. -/
def Copier.logged (copier : Copier σ) : Copier (σ × List (TypeId × Variance)) where
  target := copier.target
  substitutor := copier.substitutor.map Substitutor.logged
  options := copier.options

namespace Substitutor

/-- Noting calls is no concern of the substitutor. -/
theorem parallel_logged (f : Option (Substitutor σ)) (t : TypeId) :
    Parallel (fun s (s' : TypePool × σ × List (TypeId × Variance)) =>
        s'.1 = s.1 ∧ s'.2.1 = s.2)
      (applyOrKeep f t) (applyOrKeep (f.map logged) t) fun _ => True := by
  rintro ⟨pool, memory⟩ ⟨_, _, calls⟩ ⟨rfl, rfl⟩
  cases f with
  | none => exact .ok trivial ⟨rfl, rfl⟩
  | some f =>
    unfold applyOrKeep
    dsimp only [Option.map_some, logged]
    cases f.substitute t .invariant (_, _) with
    | ok t' s => exact .ok trivial ⟨rfl, rfl⟩
    | error e s =>
      cases e with
      | conflict => exact .ok trivial ⟨rfl, rfl⟩
      | unallocated u => exact .error ⟨rfl, rfl⟩

/-- A call is noted behind those before it. -/
theorem applyOrKeep_logged (f : Substitutor σ) (t : TypeId)
    (s : TypePool × σ × List (TypeId × Variance)) :
    Ends (applyOrKeep (some f.logged) t) s (fun _ s' => s'.2.2 = s.2.2 ++ [(t, .invariant)])
      (fun _ _ => True) := by
  obtain ⟨pool, memory, calls⟩ := s
  unfold Ends applyOrKeep
  dsimp only [logged]
  cases f.substitute t .invariant (pool, memory) with
  | ok t' s => rfl
  | error e s =>
    cases e with
    | conflict => rfl
    | unallocated u => trivial

/-- Calls in a row are noted in their order. -/
theorem mapM_logged (f : Substitutor σ) (types : List TypeId)
    (s : TypePool × σ × List (TypeId × Variance)) :
    Ends (types.mapM (applyOrKeep (some f.logged))) s
      (fun _ s' => s'.2.2 = s.2.2 ++ types.map (·, .invariant)) (fun _ _ => True) := by
  refine Ends.mapM (I := fun done _ (s' : TypePool × σ × List (TypeId × Variance)) =>
    s'.2.2 = s.2.2 ++ done.map (·, .invariant)) types (List.append_nil _).symm ?_
  rintro done t rest - ts s₁ hdone
  refine (applyOrKeep_logged f t s₁).weaken fun _ s₂ h => ?_
  rw [h, hdone, List.map_append, List.append_assoc]
  rfl

end Substitutor

/-- The types that a copy asks its substitutor for: those of the records that are copied, as their
nodes are met, and then those of the nodes, from the leaves upwards. -/
def Node.asked (table : SymbolTable) (rule : SupertypeRule) (map : CopyMap) (root : Node) :
    List TypeId :=
  typesMetAll table rule [] root.descendants ++ root.postorderBelow.flatMap (substituted map)

namespace Copier

variable {copier : Copier σ} {f : Substitutor σ} {root : Node} {inlined : String}
  {program program' : Program} {memory memory' : σ} {copied : Copied}

/-- A copy that succeeds has asked for the types, in their order, and for nothing else. -/
theorem copy_asked
    (hcopy : copier.copy root inlined (program, memory) = .ok copied (program', memory')) :
    ∃ ts, (root.asked program'.symbols copier.options.supertypes copied.map).mapM
        (Substitutor.applyOrKeep copier.substitutor) (program.pool, memory) =
      .ok ts (program'.pool, memory') := by
  obtain ⟨named, s₁, -, hjournal, hasks⟩ := copy_journal hcopy
  obtain ⟨ts, hts⟩ := hjournal.asked
  obtain ⟨ts', hts'⟩ := hasks.asked
  exact ⟨ts ++ ts', mapM_append_ok hts hts'⟩

/-- Keeping a log changes nothing else. -/
theorem copy_logged
    (hcopy : copier.copy root inlined (program, memory) = .ok copied (program', memory')) :
    ∃ calls, copier.logged.copy root inlined (program, memory, []) =
      .ok copied (program', memory', calls) := by
  have hend := parallel_copy copier copier.logged program program memory (memory, []) root inlined
    rfl rfl ⟨rfl, rfl⟩ rfl rfl
    (fun t (_ : True) => Substitutor.parallel_logged copier.substitutor t) fun n _ =>
      n.permitted_of_forall (fun _ => trivial) _
  rw [hcopy] at hend
  cases hlogged : copier.logged.copy root inlined (program, memory, []) with
  | error e s =>
    rw [hlogged] at hend
    cases hend
  | ok copied' s =>
    rw [hlogged] at hend
    obtain ⟨⟨symbols, pool, supply⟩, memory'', calls⟩ := s
    cases hend with
    | ok _ hstate =>
      obtain ⟨hsymbols, hsupply, hpool, hmemory⟩ := hstate
      dsimp only at hsymbols hsupply hpool hmemory
      rw [hsymbols, hsupply, hpool, hmemory]
      exact ⟨calls, rfl⟩

/-- **The calls of a copy, in their order.**  Whatever the substitutor does and remembers, a copy
that succeeds calls it once for each type of the records that are copied, as their nodes are met in
preorder, the types of a callable before those of its parameters; then once for each type of the
nodes below the root, in postorder; and for nothing else.  Every call is at an invariant position.
The records are read in the table that the copy leaves, which has every record of the table that
the copy starts with. -/
theorem copy_calls (hf : copier.substitutor = some f)
    (hcopy : copier.copy root inlined (program, memory) = .ok copied (program', memory')) :
    program'.symbols.Extends program.symbols ∧
      copier.logged.copy root inlined (program, memory, []) =
        .ok copied (program', memory',
          (root.asked program'.symbols copier.options.supertypes copied.map).map
            (·, .invariant)) := by
  obtain ⟨calls, hlogged⟩ := copy_logged hcopy
  obtain ⟨ts, hts⟩ := copy_asked hlogged
  have hsubstitutor : copier.logged.substitutor = some f.logged := by
    rw [logged, hf]
    rfl
  rw [hsubstitutor] at hts
  have hcalls := (Substitutor.mapM_logged f _ _).ok_of_eq hts
  rw [List.nil_append] at hcalls
  exact ⟨copy_extends hcopy, hcalls ▸ hlogged⟩

/-- A substitutor with a memory: every other call makes `int` of the type, and the calls in between
have no result. -/
def alternating : Substitutor Nat where
  substitute _ _ := fun (pool, n) =>
    if n % 2 = 0 then
      .ok (.ofPrimitive .int) (pool, n + 1)
    else
      .error .conflict (pool, n + 1)

/-- The sample tree can be copied with such a substitutor. -/
theorem copy_calls_sample :
    ∃ copied program' n,
      ({ target := ⟨0⟩, substitutor := some alternating } : Copier Nat).copy sampleTree "block"
          (sampleProgram, 0) = .ok copied (program', n) ∧
        ({ target := ⟨0⟩, substitutor := some alternating } : Copier Nat).logged.copy sampleTree
            "block" (sampleProgram, 0, []) =
          .ok copied (program', n,
            (sampleTree.asked program'.symbols .substitute copied.map).map (·, .invariant)) := by
  have hok : Succeeds (({ target := ⟨0⟩, substitutor := some alternating } : Copier Nat).copy
      sampleTree "block") (sampleProgram, 0) = true := by decide +kernel
  obtain ⟨copied, ⟨program', n⟩, hcopy⟩ := succeeds_iff.1 hok
  exact ⟨copied, program', n, hcopy, (copy_calls rfl hcopy).2⟩

end Copier

end Graft
