/-
# What a substitution reaches

A type parameter is eliminated by a substitution that maps it and brings it into no type.
If all replacements are exact, a copy under such a substitution is free of the parameter:
the types of the records that it adds are, and so are the types of the nodes below the
root, but for returns and callable references that point outside the tree
(`Copier.copy_specializes`).

One place is not reached.  The copy of a function type's `invoke` operator keeps the
receivers of the operator as they are, with the parameters that occur in them
(`Copier.invoke_receivers_not_specialized`).
-/

import Graft.Proofs.Copy.Composition

namespace Graft

open ParamSubst (outcome)
open TypePool (Grown)

/-! ### The primitive types -/

/-- The primitive types that a pool starts with stay. -/
theorem TypePool.Reachable.extends_start {pool : TypePool} (h : pool.Reachable) :
    pool.Extends {} := by
  induction h with
  | start => exact .refl _
  | intern _ hi ih => exact ih.trans (intern_extends hi)
  | typeParam _ name ih => exact ih.trans (typeParam_grown _ name).extends_

/-- A pool that calls can reach has the top type. -/
theorem TypePool.Reachable.has_any {pool : TypePool} (h : pool.Reachable) : pool.Has .any :=
  h.extends_start.has (by decide)

/-- No parameter occurs in the top type. -/
theorem TypePool.Reachable.params_any {pool : TypePool} (h : pool.Reachable) :
    (pool.unfold .any).params = [] := by
  rw [h.extends_start.unfold sound_default.ordered (by decide)]
  rfl

/-! ### What is exchanged -/

/-- The types that are substituted in the record of a copy: all that it holds, but for the
receivers of an `invoke` operator. -/
def Record.specialized : (k : Kind) → Record k → List TypeId
  | .fn, r => if r.isTypeInvoke then [r.returnType] else Record.types .fn r
  | .cls, r => Record.types .cls r
  | .ctor, r => Record.types .ctor r
  | .var, r => Record.types .var r
  | .param, r => Record.types .param r
  | .typeParam, r => Record.types .typeParam r

/-- They are what the exchanged types of the original become, and the top type. -/
theorem Node.Plays.mem_specialized {table : SymbolTable} {root : Node} {k : Kind} {id : SymbolId k}
    {role : CopyRole k} {r : Record k} (hplays : root.Plays table id role)
    (hr : table.get? id = some r) {terms : CopyTerms} {name : Name} {t : TypeId}
    (ht : t ∈ Record.specialized k (role.record terms name r)) :
    (∃ u ∈ role.types terms.supertypes r, terms.exchange.type u = t) ∨ t = .any := by
  suffices hall : Record.specialized k (role.record terms name r) ⊆
      (role.types terms.supertypes r).map terms.exchange.type ++ [.any] by
    simpa using hall ht
  cases hplays with
  | declared _ hrole =>
    cases k with
    | param | typeParam => cases hrole
    | cls =>
      cases hrole
      simp only [Record.specialized, Record.types, CopyRole.record, CopyRole.types]
      cases terms.supertypes <;> simp [SupertypeRule.apply]
    | fn =>
      cases hrole
      simp [Record.specialized, FunctionRecord.isTypeInvoke, Record.types, CopyRole.record,
        CopyRole.types, Option.toList_map]
    | ctor | var =>
      cases hrole
      simp [Record.specialized, Record.types, CopyRole.record, CopyRole.types, Option.toList_map]
  | invoke hid _ =>
    -- the copy of an `invoke` operator is one, too
    obtain ⟨n, -, hn⟩ := List.mem_filterMap.1 hid
    have hinvoke : r.isTypeInvoke = true := by
      rw [← SymbolTable.isInvoke_of_get? hr]
      exact isInvoke_of_invoked? hn
    have hinvoke' : (CopyRole.invoke.record terms name r).isTypeInvoke = true := hinvoke
    rw [Record.specialized, if_pos hinvoke']
    simp [CopyRole.record, CopyRole.types]
  | param =>
    simp [Record.specialized, Record.types, CopyRole.record, CopyRole.types, Option.toList_map]

/-! ### Elimination -/

/-- The anchor of a node does not depend on its children. -/
theorem Node.anchor?_withChildren (n : Node) (cs : List Node) :
    (n.withChildren cs).anchor? = n.anchor? := by
  cases n <;> rfl

section

variable {σ : Type} {program after : Program} {memory memory' : σ} {target : FunctionId}
  {s : ParamSubst} {options : CopyOptions} {root : Node} {inlined : String} {copied : Copied}
  {name : Name} {id : Nat}

namespace CopyResult.Copies

variable {result : CopyResult} {rule : SupertypeRule}
  (h : result.Copies program root target rule (s.replaced program.pool))
  (helim : s.Eliminates program.pool name id)

include h helim

/-- An exchanged type is free of a parameter that is eliminated. -/
theorem not_mem_params {t : TypeId} (ht : root.Exchanges program rule t) :
    (name, id) ∉ (result.program.pool.unfold (result.exchange.type t)).params := by
  rw [(h.types ht).2]
  exact helim.not_mem_replaced t

/-- What a node that moved carries is free of it. -/
theorem node_free {n : Node} (hn : n ∈ result.root.descendants)
    (hanchor : ∀ c ∈ n.anchor?, ¬ program.symbols.Allocated c.symbol)
    (hroot : root.ClosedIn program) {t : TypeId} (ht : t ∈ n.types) :
    (name, id) ∉ (result.program.pool.unfold t).params := by
  rw [h.root_eq, Node.descendants_exchange] at hn
  obtain ⟨m, hm, rfl⟩ := List.mem_map.1 hn
  rw [Node.transform_eq, Node.types_withChildren] at ht
  have hmoves : m.Moves (root.keys program.symbols) := by
    by_contra hnot
    rw [Node.transform_eq, Node.anchor?_withChildren, Node.exchange_of_not_moves hnot] at hanchor
    exact hnot fun c hc => absurd ((hroot.below hm).mention (Node.anchor_mem_mentions hc))
      (hanchor c hc)
  rw [Node.exchange_of_moves hmoves, Node.types_rename] at ht
  obtain ⟨u, hu, rfl⟩ := List.mem_map.1 ht
  exact h.not_mem_params helim (.node hm hmoves hu)

end CopyResult.Copies

namespace Copier

variable (hclosed : program.Closed) (hroot : root.ClosedIn program)
  (hwithin : s.Within program.pool)
  (hcopy : (ofParams target (some s) options).copy root inlined (program, memory) =
    .ok copied (after, memory'))

include hclosed hroot hwithin hcopy

/-- A symbol that a copy adds is the copy of something that plays a role. -/
theorem exists_plays_of_added {k : Kind} {c : SymbolId k}
    (hold : ¬ program.symbols.Allocated c.symbol) (hnew : after.symbols.Allocated c.symbol) :
    ∃ (a : SymbolId k) (role : CopyRole k) (r : Record k), copied.map.redirect a = c ∧
      root.Plays program.symbols a role ∧ program.symbols.get? a = some r := by
  obtain ⟨-, hadds⟩ := (actions_adds target (some s) options root inlined program memory).ok_of_eq
    (actions_of_copy hcopy)
  obtain ⟨a, ha⟩ := (hadds.tracks.listed _ hold hnew).resolve_left (List.not_mem_nil)
  obtain ⟨k', i⟩ := a
  obtain rfl : k = k' := CopyMap.kind_of_copyOf? ha
  have hkey : (⟨i⟩ : SymbolId k).symbol ∈ copied.map.keys := CopyMap.mem_keys.2 ⟨_, ha⟩
  have hcopied : copied.map.redirect ⟨i⟩ = c := SymbolId.symbol_inj.1 <|
    Option.some.inj ((CopyMap.copyOf?_of_mem_keys hkey).symm.trans ha)
  have hmem := (mem_keys_copied hroot (.refl _) hclosed hwithin.of_mem_some hcopy _).1 hkey
  obtain ⟨role, hplays⟩ := Node.exists_plays hmem
  obtain ⟨r, hr⟩ := SymbolTable.allocated_iff.1 (Node.key_allocated hclosed hroot hmem)
  exact ⟨⟨i⟩, role, r, hcopied, hplays, hr⟩

/-- **A substitution reaches what is copied, but for the receivers of `invoke` operators.**
Copy a tree under a substitution whose replacements are all exact, and take a parameter that
it eliminates.  The parameter occurs in no type that an added record holds, in whatever field,
other than the receivers of the copy of an `invoke` operator; these are the receivers of the
operator.  Nor does it occur in a type that a node below the root carries, unless the node
returns from or refers to a callable that was there before. -/
theorem copy_specializes (hpool : program.pool.Reachable) (hexact : s.Exact)
    (helim : s.Eliminates program.pool name id) :
    (∀ (k : Kind) (c : SymbolId k) (r : Record k), ¬ program.symbols.Allocated c.symbol →
      after.symbols.get? c = some r →
        ∀ t ∈ Record.specialized k r, (name, id) ∉ (after.pool.unfold t).params) ∧
    (∀ (c : FunctionId) (r : FunctionRecord), ¬ program.symbols.Allocated c.symbol →
      after.symbols.get? c = some r → r.isTypeInvoke = true →
        ∃ (f : FunctionId) (r' : FunctionRecord), copied.map.redirect f = c ∧
          program.symbols.get? f = some r' ∧ r.extensionReceiver = r'.extensionReceiver ∧
            r.dispatchReceiver = r'.dispatchReceiver) ∧
    ∀ n ∈ copied.root.descendants, (∀ c ∈ n.anchor?, ¬ program.symbols.Allocated c.symbol) →
      ∀ t ∈ n.types, (name, id) ∉ (after.pool.unfold t).params := by
  have hcopies := copy_copies hclosed hroot (.refl _) hclosed hpool.sound hpool.has_any
    hwithin.of_mem_some (fun x _ => hexact.made _ x) hcopy
  refine ⟨fun k c r hold hr t ht => ?_, fun c r hold hr hinvoke => ?_,
    fun n hn hanchor t ht => hcopies.node_free helim hn hanchor hroot ht⟩
  · obtain ⟨a, role, r₀, rfl, hplays, hr₀⟩ := exists_plays_of_added hclosed hroot hwithin hcopy
      hold (SymbolTable.allocated_iff.2 ⟨r, hr⟩)
    obtain ⟨generated, hcopied⟩ := hcopies.records hplays hr₀
    obtain rfl := Option.some.inj (hr.symm.trans hcopied)
    rcases hplays.mem_specialized hr₀ ht with ⟨u, hu, rfl⟩ | rfl
    · exact hcopies.not_mem_params helim (.record hplays hr₀ hu)
    · have htop : after.pool.unfold .any = program.pool.unfold .any :=
        hcopies.extends_.pool.unfold hclosed.ordered hpool.has_any
      rw [htop, hpool.params_any]
      exact List.not_mem_nil
  · obtain ⟨a, role, r₀, rfl, hplays, hr₀⟩ := exists_plays_of_added hclosed hroot hwithin hcopy
      hold (SymbolTable.allocated_iff.2 ⟨r, hr⟩)
    obtain ⟨generated, hcopied⟩ := hcopies.records hplays hr₀
    obtain rfl := Option.some.inj (hr.symm.trans hcopied)
    cases hplays with
    | declared _ hrole =>
      -- the copy of a declared function is synthesized
      cases hrole
      cases hinvoke
    | invoke => exact ⟨a, r₀, rfl, hr₀, rfl, rfl⟩

end Copier

end

/-- The sample substitution eliminates its parameter. -/
theorem sampleSubst_eliminates {pool : TypePool} {name : Name} {id : Nat}
    (hmapped : sampleSubst.projection? pool name id = some ⟨.invariant, .ofPrimitive .int⟩)
    (hint : (pool.unfold (.ofPrimitive .int)).params = []) :
    sampleSubst.Eliminates pool name id := by
  refine ⟨⟨_, hmapped⟩, fun t p hp => ?_⟩
  rw [sampleSubst, ParamSubst.insertExact, ParamSubst.get?_insert] at hp
  split at hp
  · cases hp
    rw [hint]
    exact List.not_mem_nil
  · cases hp

/-- The sample tree is copied with `int` for `T`. -/
theorem Copier.copy_specializes_sample :
    ∃ copied after,
      (ofParams ⟨0⟩ (some sampleSubst) {}).copy sampleTree "block" (sampleProgram, ()) =
        .ok copied (after, ()) ∧
      ∀ (k : Kind) (c : SymbolId k) (r : Record k), ¬ sampleProgram.symbols.Allocated c.symbol →
        after.symbols.get? c = some r →
          ∀ t ∈ Record.specialized k r, (⟨6⟩, 0) ∉ (after.pool.unfold t).params := by
  have hok : Succeeds ((ofParams ⟨0⟩ (some sampleSubst) {}).copy sampleTree "block")
      (sampleProgram, ()) = true := by decide +kernel
  obtain ⟨copied, ⟨after, ⟨⟩⟩, hcopy⟩ := succeeds_iff.1 hok
  refine ⟨copied, after, hcopy, ?_⟩
  exact (copy_specializes (by decide +kernel) (by decide +kernel) (by decide +kernel) hcopy
    (.typeParam .start ⟨6⟩) (by decide +kernel)
    (sampleSubst_eliminates (by decide +kernel) (by decide +kernel))).1

/-- A function `main`, and the `invoke` operator of a function type whose receivers are of the
type `T`, as its result is. -/
def receiverProgram : Program where
  symbols :=
    { functions := #[
        ⟨⟨2⟩, .module, .declared, [], [], ⟨5⟩, none, none, .final, .everywhere, false, false⟩,
        ⟨⟨1⟩, .module, .typeInvoke, [], [], ⟨9⟩, some ⟨9⟩, some ⟨9⟩, .final, .everywhere, false,
          false⟩] }
  pool := (({} : TypePool).typeParam ⟨3⟩).2
  supply := { names := Interner.start.internAll ["invoke", "main", "T"] }

/-- A block that calls it. -/
def receiverTree : Node :=
  .block ⟨0, 0⟩ ⟨5⟩ [.call ⟨0, 0⟩ .source ⟨9⟩ (.fn ⟨1⟩) none none none none []]

/-- **Not every type that is copied is substituted.**  With `int` for `T`, the copy of the
operator still has receivers of the type `T`. -/
theorem Copier.invoke_receivers_not_specialized :
    ¬ ∀ (program after : Program) (target : FunctionId) (s : ParamSubst) (options : CopyOptions)
        (root : Node) (inlined : String) (copied : Copied) (name : Name) (id : Nat),
      program.Closed → program.pool.Reachable → root.ClosedIn program → s.Exact →
      s.Within program.pool → s.Eliminates program.pool name id →
      (ofParams target (some s) options).copy root inlined (program, ()) =
        .ok copied (after, ()) →
      ∀ (k : Kind) (c : SymbolId k) (r : Record k), ¬ program.symbols.Allocated c.symbol →
        after.symbols.get? c = some r →
          ∀ t ∈ Record.types k r, (name, id) ∉ (after.pool.unfold t).params := by
  intro hall
  have hok : (match (ofParams ⟨0⟩ (some sampleSubst) {}).copy receiverTree "main"
        (receiverProgram, ()) with
      | .ok _ s' => decide (∃ r ∈ s'.1.symbols.get? (⟨2⟩ : FunctionId),
          (⟨9⟩ : TypeId) ∈ Record.types .fn r ∧ (⟨3⟩, 0) ∈ (s'.1.pool.unfold ⟨9⟩).params)
      | .error _ _ => false) = true := by decide +kernel
  cases hcopy : (ofParams ⟨0⟩ (some sampleSubst) {}).copy receiverTree "main"
      (receiverProgram, ()) with
  | error e s' => simp [hcopy] at hok
  | ok copied s' =>
    obtain ⟨after, ⟨⟩⟩ := s'
    obtain ⟨r, hr, ht, hmem⟩ : ∃ r ∈ after.symbols.get? (⟨2⟩ : FunctionId),
        (⟨9⟩ : TypeId) ∈ Record.types .fn r ∧ (⟨3⟩, 0) ∈ (after.pool.unfold ⟨9⟩).params := by
      simpa [hcopy] using hok
    exact hall receiverProgram after ⟨0⟩ sampleSubst {} receiverTree "main" copied ⟨3⟩ 0
      (by decide +kernel) (.typeParam .start ⟨3⟩) (by decide +kernel) (by decide +kernel)
      (by decide +kernel) (sampleSubst_eliminates (by decide +kernel) (by decide +kernel)) hcopy
      .fn ⟨2⟩ r (by decide +kernel) hr ⟨9⟩ ht hmem

end Graft
