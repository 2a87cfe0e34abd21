/-
# Asking the substitutor

An action that only substitutes types asks the substitutor for one type after the other and leaves
the symbols, the names and the copies alone (`CopyState.Asks`).  The second pass is such an action.
It rebuilds the tree from the leaves upwards and so asks for the types of every node below the root
in postorder (`CopyJob.asks_redirectReferences`).
-/

import Graft.Proofs.Copy.Image

namespace Graft

variable {σ α β γ : Type}

/-! ### Postorder -/

namespace Node

/-- The nodes of a tree, each after those below it. -/
def postorder : Node → List Node := fold fun n below => below.flatten ++ [n]

/-- The nodes below the root of a tree, each after those below it. -/
def postorderBelow (root : Node) : List Node := root.children.flatMap postorder

/-- The nodes of a tree after their children: those below the root, and last the root. -/
theorem postorder_eq (n : Node) : n.postorder = n.postorderBelow ++ [n] := fold_eq _ n

end Node

/-! ### Questions -/

/-- On the way from one state to the other the substitutor was asked for the types, in this order,
and nothing else happened but what it did. -/
structure CopyState.Asks (s : CopyState σ) (job : CopyJob σ) (types : List TypeId)
    (s' : CopyState σ) : Prop where
  symbols : s'.program.symbols = s.program.symbols
  supply : s'.program.supply = s.program.supply
  map : s'.map = s.map
  asked : ∃ ts, types.mapM (Substitutor.applyOrKeep job.substitutor)
    (s.program.pool, s.memory) = .ok ts (s'.program.pool, s'.memory)

/-- One list after another. -/
theorem mapM_append_ok {ε τ : Type} {f : α → EStateM ε τ β} {xs ys : List α} {as bs : List β}
    {s s₁ s₂ : τ} (h : xs.mapM f s = .ok as s₁) (h' : ys.mapM f s₁ = .ok bs s₂) :
    (xs ++ ys).mapM f s = .ok (as ++ bs) s₂ := by
  rw [List.mapM_append, Ends.bind_of_ok h, Ends.bind_of_ok h']
  rfl

namespace CopyState

variable {job : CopyJob σ} {s s₁ s₂ : CopyState σ} {types types' : List TypeId}

/-- Nothing is asked for at first. -/
theorem Asks.refl (s : CopyState σ) : s.Asks job [] s := ⟨rfl, rfl, rfl, [], rfl⟩

/-- What is asked for in two stretches, one after the other. -/
theorem Asks.trans (h : s.Asks job types s₁) (h' : s₁.Asks job types' s₂) :
    s.Asks job (types ++ types') s₂ := by
  obtain ⟨ts, hts⟩ := h.asked
  obtain ⟨ts', hts'⟩ := h'.asked
  exact ⟨h'.symbols.trans h.symbols, h'.supply.trans h.supply, h'.map.trans h.map, ts ++ ts',
    mapM_append_ok hts hts'⟩

end CopyState

namespace CopyJob

open CopyState

/-- Once certain symbols have copies, the action asks for the types and does nothing else. -/
def Asks (job : CopyJob σ) (map : CopyMap) (m : CopyM σ α) (types : List TypeId) : Prop :=
  ∀ s, s.map = map → Ends m s (fun _ s' => s.Asks job types s') (fun _ _ => True)

variable {job : CopyJob σ} {map : CopyMap} {m : CopyM σ α} {types types' : List TypeId}

/-- To return a value asks for nothing. -/
theorem asks_pure (a : α) : job.Asks map (pure a) [] := fun s _ => .refl s

/-- Two actions ask for what the first asks for, and then for what the second does. -/
theorem Asks.bind {f : α → CopyM σ β} (hm : job.Asks map m types)
    (hf : ∀ a, job.Asks map (f a) types') : job.Asks map (m >>= f) (types ++ types') := by
  intro s hs
  refine (hm s hs).andThen fun a s₁ h₁ => ?_
  exact (hf a s₁ (h₁.map.trans hs)).weaken fun _ _ h₂ => h₁.trans h₂

/-- What asks for nothing may come after. -/
theorem Asks.before {f : α → CopyM σ β} (hm : job.Asks map m types)
    (hf : ∀ a, job.Asks map (f a) []) : job.Asks map (m >>= f) types := by
  have h := hm.bind hf
  rwa [List.append_nil] at h

/-- Actions over a list ask for what each of them asks for, in order. -/
theorem Asks.mapM {f : γ → CopyM σ α} {types : γ → List TypeId} (xs : List γ)
    (hf : ∀ x ∈ xs, job.Asks map (f x) (types x)) :
    job.Asks map (xs.mapM f) (xs.flatMap types) := by
  induction xs with
  | nil => exact asks_pure []
  | cons x xs ih =>
    rw [List.mapM_cons]
    exact (hf x (.head _)).bind fun a =>
      (ih fun y hy => hf y (.tail _ hy)).before fun as => asks_pure (a :: as)

/-- Here the substitutor is called. -/
theorem asks_substitute (t : TypeId) : job.Asks map (job.substitute t) [t] := by
  intro s _
  unfold Ends CopyJob.substitute
  cases h : Substitutor.applyOrKeep job.substitutor t (s.program.pool, s.memory) with
  | ok t' state =>
    refine ⟨rfl, rfl, rfl, [t'], ?_⟩
    rw [List.mapM_cons, Ends.bind_of_ok h]
    rfl
  | error u state => trivial

/-- A type that may be missing is asked for if it is there. -/
theorem asks_substituteOption (t : Option TypeId) :
    job.Asks map (t.mapM job.substitute) t.toList := by
  cases t with
  | none => exact asks_pure none
  | some t => exact (asks_substitute t).before fun t' => asks_pure (some t')

/-! ### The second pass -/

/-- The types of type arguments are asked for, in order. -/
theorem asks_substituteArgs (args : Option TypeArguments) :
    job.Asks map (job.substituteArgs args)
      ((args.elim [] TypeArguments.entries).map fun e => e.2) := by
  cases args with
  | none => exact asks_pure none
  | some args =>
    have hentries : job.Asks map
        (args.entries.mapM fun e => return (e.1, ← job.substitute e.2)) _ :=
      Asks.mapM args.entries fun e _ => (asks_substitute e.2).before fun t => asks_pure (e.1, t)
    have hargs : job.Asks map (args.mapM job.substitute) _ :=
      hentries.before fun entries => asks_pure (⟨entries⟩ : TypeArguments)
    rw [← List.map_eq_flatMap] at hargs
    exact hargs.before fun args => asks_pure (some args)

/-- A node is resolved by asking for its types. -/
theorem asks_resolve (n : Node) : job.Asks map (job.resolve n) (n.substituted map) := by
  intro s hs
  refine Ends.bind (Ends.of_eq_ok (show CopyM.copies s = .ok map s from hs ▸ rfl) ?_)
  revert s
  show job.Asks map _ _
  cases n with
  | classDecl | functionDecl | constructorDecl | variableDecl | getValue | setVariable |
    whileLoop => exact asks_pure _
  | block | const | «when» => exact (asks_substitute _).before fun ty => asks_pure _
  | typeOp =>
    exact (asks_substitute _).bind fun ty => (asks_substitute _).before fun operandTy => asks_pure _
  | call =>
    exact (asks_substitute _).bind fun ty =>
      (asks_substituteArgs _).before fun typeArgs => asks_pure _
  | callableRef span origin ty target =>
    simp only [Node.substituted]
    cases map.callable? target with
    | none => exact asks_pure _
    | some copy =>
      exact (asks_substitute _).bind fun ty =>
        (asks_substituteArgs _).before fun typeArgs => asks_pure _
  | returnFrom span ty target =>
    simp only [Node.substituted]
    cases map.callable? target with
    | none => exact asks_pure _
    | some copy => exact (asks_substitute _).before fun ty => asks_pure _

/-- A tree is rebuilt by asking for the types of its nodes in postorder. -/
theorem asks_rebuild (n : Node) :
    job.Asks map (Node.rebuild job.resolve n) (n.postorder.flatMap (Node.substituted map)) := by
  induction n using Node.induction_children with
  | step n ih =>
    have hresolve : ∀ cs, job.Asks map (job.resolve (n.withChildren cs)) (n.substituted map) := by
      intro cs
      rw [← Node.substituted_withChildren n cs]
      exact asks_resolve (n.withChildren cs)
    rw [Node.rebuild, Node.rebuildChildren_eq, bind_map_left, Node.postorder_eq,
      Node.postorderBelow, List.flatMap_append, List.flatMap_assoc, List.flatMap_singleton]
    exact (Asks.mapM n.children ih).bind hresolve

/-- **The second pass asks for the types below the root in postorder.** -/
theorem asks_redirectReferences (root : Node) :
    job.Asks map (job.redirectReferences root)
      (root.postorderBelow.flatMap (Node.substituted map)) := by
  rw [redirectReferences, Node.rebuildChildren_eq, map_eq_pure_bind, Node.postorderBelow,
    List.flatMap_assoc]
  exact (Asks.mapM root.children fun c _ => asks_rebuild c).before fun cs => asks_pure _

end CopyJob

/-- So does the second pass with the check. -/
theorem Copier.asks_secondPass (copier : Copier σ) {job : CopyJob σ} {map : CopyMap}
    (root : Node) :
    job.Asks map (copier.secondPass job root)
      (root.postorderBelow.flatMap (Node.substituted map)) := by
  refine (CopyJob.asks_redirectReferences root).before fun copy s hs => ?_
  refine Ends.bind (Ends.of_eq_ok (show CopyM.copies s = .ok s.map s from rfl) ?_)
  dsimp only
  split
  · split
    · trivial
    · exact .refl s
  · exact .refl s

end Graft
