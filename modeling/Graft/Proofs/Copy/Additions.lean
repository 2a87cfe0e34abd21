/-
# What a copy adds

A copy never touches a record that was there when it started, and the symbols it
adds are exactly the copies that its map lists, besides those it has not come to
list yet (`CopyState.Tracks`).  One step keeps this (`CopyState.Tracks.step`).  A step
also keeps every name and, under a map of type parameters, every type
(`CopyJob.Steps.pool_grown`).  So all of it holds after every run, whether the copy
succeeds or stops half way (`Copier.actions_adds`).
-/

import Graft.Proofs.Copy.Run
import Graft.Proofs.Type.Replay

namespace Graft

variable {σ : Type}

/-- What holds between the table that a copy starts with, the symbols that are
`pending` and the state. -/
structure CopyState.Tracks (s : CopyState σ) (base : SymbolTable) (pending : List Symbol) :
    Prop where
  /-- Every record that was there is as it was. -/
  extends_ : s.program.symbols.Extends base
  /-- What is pending or listed as a copy was added. -/
  added : ∀ c, (c ∈ pending ∨ ∃ a, s.map.copyOf? a = some c) →
    ¬ base.Allocated c ∧ s.program.symbols.Allocated c
  /-- What was added is pending or listed as a copy. -/
  listed : ∀ c, ¬ base.Allocated c → s.program.symbols.Allocated c →
    c ∈ pending ∨ ∃ a, s.map.copyOf? a = some c
  /-- No symbol is the copy of two. -/
  injective : ∀ a b c, s.map.copyOf? a = some c → s.map.copyOf? b = some c → a = b
  /-- A pending symbol is pending once and not listed. -/
  nodup : pending.Nodup
  unlisted : ∀ c ∈ pending, ∀ a, s.map.copyOf? a ≠ some c
  size_eq : s.program.symbols.size = base.size + s.map.size + pending.length

namespace CopyState.Tracks

variable {job : CopyJob σ} {base : SymbolTable} {pending : List Symbol} {s s' : CopyState σ}

/-- A copy starts with nothing pending and nothing listed. -/
theorem start (s : CopyState σ) (h : s.map = {}) : s.Tracks s.program.symbols [] := by
  have hmap : ∀ a, s.map.copyOf? a = none := fun a => by
    rw [h, CopyMap.copyOf?_empty]
  refine ⟨.refl _, ?_, fun c hn ha => absurd ha hn, ?_, .nil, nofun, ?_⟩
  · rintro c (hc | ⟨a, ha⟩)
    · cases hc
    · rw [hmap] at ha
      cases ha
  · intro a b c ha
    rw [hmap] at ha
    cases ha
  · rw [h]
    rfl

/-- Types and names are no concern of the symbols. -/
theorem of_frame (h : s.Tracks base pending) (hs : s'.program.symbols = s.program.symbols)
    (hm : s'.map = s.map) : s'.Tracks base pending := by
  obtain ⟨h₁, h₂, h₃, h₄, h₅, h₆, h₇⟩ := h
  refine ⟨?_, ?_, ?_, ?_, h₅, ?_, ?_⟩ <;> simp only [hs, hm] <;> assumption

/-- A record just made is pending. -/
theorem mint (h : s.Tracks base pending) {k : Kind} (r : Record k) :
    (s.withSymbols (s.program.symbols.add r).2).Tracks base
      (⟨k, s.program.symbols.count k⟩ :: pending) := by
  have hnew : ¬ s.program.symbols.Allocated ⟨k, s.program.symbols.count k⟩ := Nat.lt_irrefl _
  refine ⟨h.extends_.trans (s.program.symbols.add_extends r), ?_, ?_, h.injective, ?_, ?_, ?_⟩
  · rintro c hc
    show _ ∧ (s.program.symbols.add r).2.Allocated c
    rw [SymbolTable.allocated_add]
    rcases hc with hc | hc
    · rcases List.mem_cons.1 hc with rfl | hc
      · exact ⟨fun hb => hnew (h.extends_.allocated hb), .inr rfl⟩
      · obtain ⟨hb, ha⟩ := h.added c (.inl hc)
        exact ⟨hb, .inl ha⟩
    · obtain ⟨hb, ha⟩ := h.added c (.inr hc)
      exact ⟨hb, .inl ha⟩
  · intro c hb ha
    rcases (SymbolTable.allocated_add _ r c).1 ha with ha | rfl
    · rcases h.listed c hb ha with hc | hc
      · exact .inl (.tail _ hc)
      · exact .inr hc
    · exact .inl (.head _)
  · exact List.nodup_cons.2 ⟨fun hc => hnew (h.added _ (.inl hc)).2, h.nodup⟩
  · intro c hc a ha
    rcases List.mem_cons.1 hc with rfl | hc
    · exact hnew (h.added _ (.inr ⟨a, ha⟩)).2
    · exact h.unlisted c hc a ha
  · show (s.program.symbols.add r).2.size = _
    rw [SymbolTable.size_add, h.size_eq, List.length_cons]
    show _ = base.size + s.map.size + _
    omega

/-- Completing a record that is pending, or a copy, moves nothing. -/
theorem complete (h : s.Tracks base pending) {k : Kind} {id : SymbolId k}
    (hid : id.symbol ∈ pending ∨ ∃ a, s.map.copyOf? a = some id.symbol)
    (f : Record k → Record k) :
    (s.withSymbols (s.program.symbols.modify id f)).Tracks base pending := by
  have hmod : ∀ c, (s.program.symbols.modify id f).Allocated c ↔ s.program.symbols.Allocated c :=
    SymbolTable.allocated_modify _ id f
  refine ⟨h.extends_.modify (h.added _ hid).1 f, ?_, ?_, h.injective, h.nodup, h.unlisted, ?_⟩
  · intro c hc
    obtain ⟨hb, ha⟩ := h.added c hc
    exact ⟨hb, (hmod c).2 ha⟩
  · intro c hb ha
    exact h.listed c hb ((hmod c).1 ha)
  · show (s.program.symbols.modify id f).size = _
    rw [SymbolTable.size_modify, h.size_eq]
    rfl

/-- A pending record is registered as the copy. -/
theorem register {k : Kind} [k.Copied] {id copy : SymbolId k}
    (h : s.Tracks base (copy.symbol :: pending)) {map : CopyMap}
    (hi : s.map.insert id copy = .ok map) : ({ s with map } : CopyState σ).Tracks base pending := by
  have hmap := CopyMap.copyOf?_insert hi
  have hnone := CopyMap.copyOf?_of_insert hi
  obtain ⟨hcopy, hnodup⟩ := List.nodup_cons.1 h.nodup
  -- what the larger map lists: the new copy, and what was listed
  have hlisted : ∀ a c, map.copyOf? a = some c →
      (a = id.symbol ∧ c = copy.symbol) ∨ (a ≠ id.symbol ∧ s.map.copyOf? a = some c) := by
    intro a c ha
    rw [hmap] at ha
    split at ha
    · cases ha
      exact .inl ⟨‹_›, rfl⟩
    · exact .inr ⟨‹_›, ha⟩
  refine ⟨h.extends_, ?_, ?_, ?_, hnodup, ?_, ?_⟩
  · rintro c (hc | ⟨a, ha⟩)
    · exact h.added c (.inl (.tail _ hc))
    · rcases hlisted a c ha with ⟨-, rfl⟩ | ⟨-, ha⟩
      · exact h.added _ (.inl (.head _))
      · exact h.added c (.inr ⟨a, ha⟩)
  · intro c hb ha
    rcases h.listed c hb ha with hc | ⟨a, ha⟩
    · rcases List.mem_cons.1 hc with rfl | hc
      · exact .inr ⟨id.symbol, by rw [hmap, if_pos rfl]⟩
      · exact .inl hc
    · refine .inr ⟨a, ?_⟩
      rw [hmap, if_neg]
      · exact ha
      · rintro rfl
        rw [hnone] at ha
        cases ha
  · intro a b c ha hb
    rcases hlisted a c ha with ⟨rfl, rfl⟩ | ⟨-, ha⟩ <;>
      rcases hlisted b _ hb with ⟨rfl, hc⟩ | ⟨-, hb⟩
    · rfl
    · exact absurd hb (h.unlisted _ (.head _) b)
    · exact absurd (hc ▸ ha) (h.unlisted _ (.head _) a)
    · exact h.injective a b c ha hb
  · intro c hc a ha
    rcases hlisted a c ha with ⟨-, rfl⟩ | ⟨-, ha⟩
    · exact hcopy hc
    · exact h.unlisted c (.tail _ hc) a ha
  · show s.program.symbols.size = base.size + map.size + pending.length
    rw [h.size_eq, CopyMap.size_insert hi, List.length_cons]
    omega

/-- **One step keeps track of the symbols.** -/
theorem step {p q : List Symbol} (h : s.Tracks base p) (hs : job.Step (p, s) (q, s')) :
    s'.Tracks base q := by
  cases hs with
  | substitute t hl =>
    obtain ⟨pool, memory, rfl⟩ := (job.substitute_frame t _).of_leads hl
    exact h.of_frame rfl rfl
  | name base hl =>
    obtain ⟨supply, rfl⟩ := (job.freshName_frame base _).of_leads hl
    exact h.of_frame rfl rfl
  | mint r => exact h.mint r
  | complete id f hid => exact h.complete hid f
  | register id copy hi => exact h.register hi

/-- What is pending and what is registered stays on track over any number of steps. -/
theorem steps {u v : List Symbol × CopyState σ} (hs : job.Steps u v) (h : u.2.Tracks base u.1) :
    v.2.Tracks base v.1 := by
  induction hs with
  | refl => exact h
  | tail _ hstep ih => exact ih.step hstep

end CopyState.Tracks

/-! ### Types and names -/

namespace CopyJob

variable {job : CopyJob σ} {subst : Option ParamSubst}

/-- Substituting under a map of type parameters adds types to the pool.  The type
settles in the new pool. -/
theorem substitute_ends (hsub : job.substitutor = ParamSubst.substitutor? subst) (t : TypeId)
    (s : CopyState σ) :
    Ends (job.substitute t) s
      (fun t' s' => ∃ pool, s' = { s with program := { s.program with pool } } ∧
        TypePool.Grown s.program.pool pool ∧
        ∀ later : TypePool, later.Extends pool → ParamSubst.Settles subst later t t')
      (fun _ s' => ∃ pool, s' = { s with program := { s.program with pool } } ∧
        TypePool.Grown s.program.pool pool) := by
  unfold Ends substitute
  dsimp only
  rw [hsub]
  have h := ParamSubst.applyOrKeep_ends subst t s.program.pool s.memory
  cases ha : Substitutor.applyOrKeep (ParamSubst.substitutor? subst) t
      (s.program.pool, s.memory) with
  | ok t' u =>
    obtain ⟨pool, memory⟩ := u
    obtain ⟨rfl, hp, hl⟩ := h.ok_of_eq ha
    exact ⟨pool, rfl, hp, hl⟩
  | error e u =>
    obtain ⟨pool, memory⟩ := u
    obtain ⟨rfl, hp⟩ := h.err_of_eq ha
    exact ⟨pool, rfl, hp⟩

/-- Taking a name keeps every name. -/
theorem freshName_ends (base : Name) (s : CopyState σ) :
    Ends (job.freshName base) s
      (fun _ s' => ∃ supply, s' = { s with program := { s.program with supply } } ∧
        supply.names.Extends s.program.supply.names)
      (fun e s' => (∃ full, e = .rejected (.nameCapacity full)) ∧
        ∃ supply, s' = { s with program := { s.program with supply } } ∧
          supply.names.Extends s.program.supply.names) := by
  unfold Ends freshName NameScheme.fresh NameSupply.take
  dsimp only
  cases h : s.program.supply.names.intern (job.scheme.text (s.program.supply.names.lookup base)
      s.program.supply.next) with
  | ok r =>
    obtain ⟨name, names⟩ := r
    exact ⟨_, rfl, Interner.intern_extends h⟩
  | error e => exact ⟨⟨e, rfl⟩, _, rfl, .refl _⟩

/-- Every type keeps its meaning under a map of type parameters. -/
theorem Steps.pool_grown (hsub : job.substitutor = ParamSubst.substitutor? subst)
    {u v : List Symbol × CopyState σ} (h : job.Steps u v) :
    TypePool.Grown u.2.program.pool v.2.program.pool := by
  induction h with
  | refl => exact .refl _
  | tail _ step ih =>
    cases step with
    | substitute t h =>
      obtain ⟨pool, rfl, hp⟩ := ((substitute_ends hsub t _).imp
        (fun _ _ ⟨pool, he, hp, _⟩ => ⟨pool, he, hp⟩) fun _ _ h => h).of_leads h
      exact ih.trans hp
    | name base h =>
      obtain ⟨supply, rfl⟩ := (job.freshName_frame base _).of_leads h
      exact ih
    | mint r => exact ih
    | complete id f h => exact ih
    | register id copy h => exact ih

/-- Every name keeps its meaning. -/
theorem Steps.names_extends {u v : List Symbol × CopyState σ} (h : job.Steps u v) :
    v.2.program.supply.names.Extends u.2.program.supply.names := by
  induction h with
  | refl => exact .refl _
  | tail _ step ih =>
    cases step with
    | substitute t h =>
      obtain ⟨pool, memory, rfl⟩ := (job.substitute_frame t _).of_leads h
      exact ih
    | name base h =>
      obtain ⟨supply, rfl, hn⟩ := ((freshName_ends base _).imp (fun _ _ h => h)
        fun _ _ h => h.2).of_leads h
      exact ih.trans hn
    | mint r => exact ih
    | complete id f h => exact ih
    | register id copy h => exact ih

end CopyJob

namespace Copier

/-- The copier that replaces type parameters as a substitution says, if there is one. -/
def ofParams (target : FunctionId) (subst : Option ParamSubst) (options : CopyOptions) :
    Copier σ where
  target
  substitutor := ParamSubst.substitutor? subst
  options

/-- What every copy leaves behind: the program has grown, and every symbol that was
added is pending or the copy of exactly one symbol. -/
structure Adds (program : Program) (pending : List Symbol) (s : CopyState σ) : Prop where
  extends_ : s.program.Extends program
  tracks : s.Tracks program.symbols pending

/-- The run of a copy adds the records that are pending or registered, and no others. -/
theorem adds_of_steps {target : FunctionId} {subst : Option ParamSubst} {options : CopyOptions}
    {inlined : String} {program : Program} {memory : σ} {pending : List Symbol} {s : CopyState σ}
    (h : ((ofParams target subst options).job program inlined).Steps ([], { program, memory })
      (pending, s)) : Adds program pending s := by
  have htracks := CopyState.Tracks.steps h (.start _ rfl)
  exact ⟨⟨htracks.extends_, (CopyJob.Steps.pool_grown rfl h).extends_,
    CopyJob.Steps.names_extends h⟩, htracks⟩

/-- **Every copy only adds,** and one that succeeds has listed all that it added. -/
theorem actions_adds (target : FunctionId) (subst : Option ParamSubst) (options : CopyOptions)
    (root : Node) (inlined : String) (program : Program) (memory : σ) :
    Ends ((ofParams target subst options).actions root inlined) { program, memory }
      (fun copied s' => copied.map = s'.map ∧ Adds program [] s')
      (fun _ s' => ∃ pending, Adds program pending s') := by
  refine ((ofParams target subst options).actions_steps root inlined { program, memory }).imp
    (fun copied s' h => ⟨h.1, adds_of_steps h.2⟩) ?_
  rintro e s' ⟨pending, h⟩
  exact ⟨pending, adds_of_steps h⟩

end Copier

end Graft
