/-
# The part of a substitution that a copy needs

The types that come up in a copy are those that the nodes below the root carry and those in the
records of what these nodes bring: the symbols that they declare, the `invoke` operators that they
call and the parameters of both (`Node.carried`).  A copy asks its substitution for the parameters
that occur in these types and for nothing else (`Copier.copy_relevant`), so two substitutions that
give the same for them lead to the same copy, the same symbols, types and names, or the same error.
-/

import Graft.Proofs.Copy.Acceptance
import Graft.Proofs.Copy.Parallel
import Graft.Proofs.Type.Agreement

namespace Graft

variable {σ : Type} {k : Kind}

namespace SymbolTable

variable {table : SymbolTable} {allowed : TypeId → Prop}

/-- The types in the record of a symbol; none if it is not allocated. -/
def typesOf (table : SymbolTable) (a : Symbol) : List TypeId :=
  (table.get? (⟨a.index⟩ : SymbolId a.kind)).elim [] (Record.types a.kind)

/-- The types of a symbol are those of its record. -/
theorem typesOf_eq {id : SymbolId k} {r : Record k} (hr : table.get? id = some r) :
    table.typesOf id.symbol = Record.types k r := by
  show (table.get? id).elim [] (Record.types k) = _
  rw [hr]
  rfl

/-- A symbol is permitted when all of its types are allowed. -/
theorem permits_of_typesOf {id : SymbolId k} (hid : table.Allocated id.symbol)
    (h : ∀ t ∈ table.typesOf id.symbol, allowed t) : table.Permits allowed id := by
  intro r hreads t ht
  obtain ⟨r', hr'⟩ := allocated_iff.1 hid
  obtain rfl := hreads r' hr'
  exact h t (typesOf_eq hr' ▸ ht)

end SymbolTable

/-- A callable of a closed program asks for the types in its record and those of its
parameters. -/
theorem Program.Closed.permitsCallable {program : Program} (h : program.Closed)
    {allowed : TypeId → Prop} {callable : Callable}
    (hc : program.symbols.Allocated callable.symbol)
    (hallowed : ∀ a ∈ program.symbols.withParams callable, ∀ t ∈ program.symbols.typesOf a,
      allowed t) :
    program.symbols.PermitsCallable allowed callable := by
  have hself : callable.symbol ∈ program.symbols.withParams callable :=
    SymbolTable.mem_withParams.2 rfl
  have hparam : ∀ p ∈ program.symbols.paramsOf callable, program.symbols.Allocated p.symbol →
      program.symbols.Permits allowed p := fun p hp halloc =>
    SymbolTable.permits_of_typesOf halloc
      (hallowed _ (SymbolTable.mem_withParams_iff.2 (.inl ⟨p, hp, rfl⟩)))
  cases callable with
  | fn id =>
    refine ⟨SymbolTable.permits_of_typesOf hc (hallowed _ hself), fun r hreads p hp => ?_⟩
    obtain ⟨r', hr'⟩ := SymbolTable.allocated_iff.1 hc
    obtain rfl := hreads r' hr'
    refine hparam p (by rwa [SymbolTable.paramsOf_fn hr']) (h.allocated hr' ?_)
    exact List.mem_append_right _ (List.mem_map_of_mem hp)
  | ctor id =>
    refine ⟨SymbolTable.permits_of_typesOf hc (hallowed _ hself), fun r hreads p hp => ?_⟩
    obtain ⟨r', hr'⟩ := SymbolTable.allocated_iff.1 hc
    obtain rfl := hreads r' hr'
    refine hparam p (by rwa [SymbolTable.paramsOf_ctor hr']) (h.allocated hr' ?_)
    exact .tail _ (List.mem_append_right _ (List.mem_map_of_mem hp))

namespace Node

variable {program : Program} {root n : Node}

/-- The types that come up when everything below the root is copied. -/
def carried (table : SymbolTable) (root : Node) : List TypeId :=
  root.descendants.flatMap types ++ (bringsAll table root.descendants).flatMap table.typesOf

/-- They are types of a closed program. -/
theorem ClosedIn.has_carried (hclosed : program.Closed) (hroot : root.ClosedIn program)
    {t : TypeId} (ht : t ∈ root.carried program.symbols) : program.pool.Has t := by
  rcases List.mem_append.1 ht with ht | ht
  · obtain ⟨n, hn, ht⟩ := List.mem_flatMap.1 ht
    exact (hroot.below hn).types t ht
  · obtain ⟨a, -, ht⟩ := List.mem_flatMap.1 ht
    unfold SymbolTable.typesOf at ht
    cases hr : program.symbols.get? (⟨a.index⟩ : SymbolId a.kind) with
    | none => simp [hr] at ht
    | some r =>
      rw [hr] at ht
      exact hclosed.has hr ht

/-- Over a closed program the nodes below the root of a tree ask for nothing but what comes up. -/
theorem ClosedIn.permitted (hclosed : program.Closed) (hroot : root.ClosedIn program)
    {allowed : TypeId → Prop} (hallowed : ∀ t ∈ root.carried program.symbols, allowed t)
    (hn : n ∈ root.descendants) : n.Permitted program.symbols allowed := by
  have hknown : n.KnownTo program := hroot.below hn
  have hbrings : ∀ a ∈ n.brings program.symbols, ∀ t ∈ program.symbols.typesOf a, allowed t := by
    intro a ha t ht
    exact hallowed t (List.mem_append_right _
      (List.mem_flatMap.2 ⟨a, List.mem_flatMap.2 ⟨n, hn, ha⟩, ht⟩))
  refine ⟨fun t ht => hallowed t (List.mem_append_left _ (List.mem_flatMap.2 ⟨n, hn, ht⟩)), ?_⟩
  split
  · exact SymbolTable.permits_of_typesOf (hknown.mention (.head _)) (hbrings _ (.head _))
  · exact hclosed.permitsCallable (hknown.mention (.head _)) hbrings
  · exact hclosed.permitsCallable (hknown.mention (.head _)) hbrings
  · exact SymbolTable.permits_of_typesOf (hknown.mention (.head _)) (hbrings _ (.head _))
  · rename_i span origin ty callee typeArgs superClass dispatch extension args
    rintro ⟨r, hreads, hinvoke⟩
    have hcallee : program.symbols.Allocated callee.symbol := hknown.mention (.head _)
    obtain ⟨r', hr'⟩ := SymbolTable.allocated_iff.1 hcallee
    obtain rfl := hreads r' hr'
    rw [brings, if_pos ((SymbolTable.isInvoke_of_get? hr').trans hinvoke)] at hbrings
    exact hclosed.permitsCallable hcallee hbrings
  · trivial

end Node

namespace Copier

open ParamSubst

variable {program : Program} {root : Node}

/-- What was left behind is the same if its parts are. -/
theorem eq_of_same {pool : TypePool} {s s' : Program × σ}
    (h : s'.1.symbols = s.1.symbols ∧ s'.1.supply = s.1.supply ∧ s.2 = s'.2 ∧
      Along pool s.1.pool s'.1.pool) : s = s' := by
  obtain ⟨⟨symbols, pool, supply⟩, memory⟩ := s
  obtain ⟨rfl, rfl, rfl, rfl, -⟩ := h
  rfl

/-- **A copy depends on its substitution only where it needs it.**  Substitutions, or none, that
give the same for every parameter in the types that come up do the same in every respect: they give
the same copy, or stop with the same error, and leave the same symbols, types and names behind.  A
map without any such parameter, be it empty, might as well not be there. -/
theorem copy_relevant (target : FunctionId) (options : CopyOptions) (inlined : String) (memory : σ)
    (hclosed : program.Closed) (hsound : program.pool.Sound) (hroot : root.ClosedIn program) :
    (∀ subst subst' : Option ParamSubst,
      (∀ t ∈ root.carried program.symbols, AgreeOn subst subst' program.pool t) →
        (ofParams target subst options).copy root inlined (program, memory) =
          (ofParams target subst' options).copy root inlined (program, memory)) ∧
    ∀ s : ParamSubst,
      (∀ e ∈ s.entries, ∀ t ∈ root.carried program.symbols,
        ∀ p ∈ (program.pool.unfold t).params,
          program.pool.find? (.param p.1 p.2) ≠ some e.1) →
        (ofParams target (some s) options).copy root inlined (program, memory) =
          (ofParams target none options).copy root inlined (program, memory) := by
  have hagree : ∀ subst subst' : Option ParamSubst,
      (∀ t ∈ root.carried program.symbols, AgreeOn subst subst' program.pool t) →
        (ofParams target subst options).copy root inlined (program, memory) =
          (ofParams target subst' options).copy root inlined (program, memory) := by
    intro subst subst' h
    have hpermitted : ∀ n ∈ root.descendants, n.Permitted program.symbols fun t =>
        program.pool.Has t ∧ AgreeOn subst subst' program.pool t := fun n hn =>
      hroot.permitted hclosed (fun t ht => ⟨hroot.has_carried hclosed ht, h t ht⟩) hn
    have hend := parallel_copy (ofParams target subst options) (ofParams target subst' options)
      program program memory memory root inlined rfl rfl ⟨rfl, rfl, .refl _⟩ rfl rfl
      (fun t ht => ht.2.parallel_applyOrKeep hsound ht.1) hpermitted
    exact hend.eq_of_eq fun _ _ => eq_of_same
  refine ⟨hagree, fun s hs => hagree _ _ fun t ht p hp => ?_⟩
  show (program.pool.find? (.param p.1 p.2)).bind s.get? = none
  rw [Option.bind_eq_none_iff]
  intro u hu
  rw [get?, List.lookup_eq_none_iff]
  intro e he
  exact bne_iff_ne.2 fun (hue : u = e.1) => hs e he t ht p hp (hue ▸ hu)

/-- The sample tree is copied the same if `str` is exchanged as well, which is no parameter; and
where nothing else is exchanged, it is copied as if there were no substitution. -/
theorem copy_relevant_sample :
    (ofParams ⟨0⟩ (some sampleSubst) {}).copy sampleTree "block" (sampleProgram, ()) =
        (ofParams ⟨0⟩ (some (sampleSubst.insertExact (.ofPrimitive .str) (.ofPrimitive .bool)))
          {}).copy sampleTree "block" (sampleProgram, ()) ∧
      (ofParams ⟨0⟩ (some (insertExact {} (.ofPrimitive .str) (.ofPrimitive .bool))) {}).copy
          sampleTree "block" (sampleProgram, ()) =
        (ofParams ⟨0⟩ none {}).copy sampleTree "block" (sampleProgram, ()) := by
  have hsound : sampleProgram.pool.Sound := TypePool.sound_default.typeParam _
  have hclosed : sampleProgram.Closed := by decide +kernel
  have hroot : sampleTree.ClosedIn sampleProgram := by decide +kernel
  obtain ⟨hagree, hunrelated⟩ := copy_relevant ⟨0⟩ {} "block" () hclosed hsound hroot
  exact ⟨hagree _ _ (by decide +kernel), hunrelated _ (by decide +kernel)⟩

end Copier

end Graft
