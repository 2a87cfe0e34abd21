/-
# What copying a declaration gains

Over a closed program, copying a declaration either gives copies to certain symbols
that had none, its keys, and leaves every record and every other copy alone
(`CopyState.Gains`), or fails.  It fails for one of two reasons: a name does not fit
into the interner, or what the declaration needs does not hold (`CopyJob.Fails`).
-/

import Graft.Proofs.Copy.Role

namespace Graft

open TypePool (Grown)
open ParamSubst (outcome)

variable {σ α : Type}

namespace SymbolTable

/-- The value parameters of a callable; none if it is not allocated. -/
def paramsOf (table : SymbolTable) (callable : Callable) : List ParamId :=
  match table.paramList callable with
  | .ok params => params
  | .error _ => []

/-- A callable with its parameters, in the order in which they are given copies. -/
def withParams (table : SymbolTable) (callable : Callable) : List Symbol :=
  (table.paramsOf callable).map SymbolId.symbol ++ [callable.symbol]

variable {table later : SymbolTable}

/-- With a callable come its value parameters and the callable itself. -/
theorem mem_withParams_iff {callable : Callable} {a : Symbol} :
    a ∈ table.withParams callable ↔
      (∃ p ∈ table.paramsOf callable, a = p.symbol) ∨ a = callable.symbol := by
  rw [withParams, List.mem_append, List.mem_map, List.mem_singleton]
  exact or_congr_left ⟨fun ⟨p, hp, h⟩ => ⟨p, hp, h.symm⟩, fun ⟨p, hp, h⟩ => ⟨p, hp, h.symm⟩⟩

/-- The only callable that comes with a callable is the callable itself. -/
theorem mem_withParams {callable c : Callable} :
    c.symbol ∈ table.withParams callable ↔ c = callable := by
  rw [mem_withParams_iff]
  constructor
  · rintro (⟨p, -, h⟩ | h)
    · exact absurd h (c.symbol_ne (by decide) (by decide) p)
    · exact Callable.symbol_inj.1 h
  · rintro rfl
    exact .inr rfl

/-- The parameters of a function are read off its record. -/
theorem paramList_fn {id : FunctionId} {r : FunctionRecord} (h : table.get? id = some r) :
    table.paramList (.fn id) = .ok r.params := by
  rw [paramList, get, h]
  rfl

/-- The parameters of a constructor are read off its record. -/
theorem paramList_ctor {id : ConstructorId} {r : ConstructorRecord} (h : table.get? id = some r) :
    table.paramList (.ctor id) = .ok r.params := by
  rw [paramList, get, h]
  rfl

/-- A function has the parameters its record lists. -/
theorem paramsOf_fn {id : FunctionId} {r : FunctionRecord} (h : table.get? id = some r) :
    table.paramsOf (.fn id) = r.params := by
  rw [paramsOf, paramList_fn h]

/-- A constructor has the parameters its record lists. -/
theorem paramsOf_ctor {id : ConstructorId} {r : ConstructorRecord} (h : table.get? id = some r) :
    table.paramsOf (.ctor id) = r.params := by
  rw [paramsOf, paramList_ctor h]

/-- What has a list of parameters is in the table. -/
theorem allocated_of_paramList {callable : Callable} {params : List ParamId}
    (h : table.paramList callable = .ok params) : table.Allocated callable.symbol := by
  cases callable with
  | fn id =>
    cases hr : table.get? id with
    | some r => exact allocated_iff.2 ⟨r, hr⟩
    | none =>
      rw [paramList, get, hr] at h
      cases h
  | ctor id =>
    cases hr : table.get? id with
    | some r => exact allocated_iff.2 ⟨r, hr⟩
    | none =>
      rw [paramList, get, hr] at h
      cases h

/-- A callable keeps its parameter list. -/
theorem Extends.paramList (h : later.Extends table) {callable : Callable}
    (hc : table.Allocated callable.symbol) :
    later.paramList callable = table.paramList callable := by
  cases callable with
  | fn id =>
    obtain ⟨r, hr⟩ := allocated_iff.1 hc
    rw [paramList_fn hr, paramList_fn (h.get? hr)]
  | ctor id =>
    obtain ⟨r, hr⟩ := allocated_iff.1 hc
    rw [paramList_ctor hr, paramList_ctor (h.get? hr)]

/-- A callable that is given a parameter list has it. -/
theorem paramList_setParamList {callable : Callable} (h : table.Allocated callable.symbol)
    (params : List ParamId) :
    (table.setParamList params callable).paramList callable = .ok params := by
  cases callable with
  | fn id =>
    obtain ⟨r, hr⟩ := allocated_iff.1 h
    have hself := table.get?_modify_self id fun r => { r with params }
    rw [hr] at hself
    exact paramList_fn hself
  | ctor id =>
    obtain ⟨r, hr⟩ := allocated_iff.1 h
    have hself := table.get?_modify_self id fun r => { r with params }
    rw [hr] at hself
    exact paramList_ctor hself

/-- The parameters themselves stay as they are. -/
theorem get?_setParamList (params : List ParamId) (callable : Callable) (p : ParamId) :
    (table.setParamList params callable).get? p = table.get? p := by
  cases callable <;> rfl

/-- Completing a record that is new leaves the older ones alone. -/
theorem Extends.setParamList (h : later.Extends table) {callable : Callable}
    (hc : ¬ table.Allocated callable.symbol) (params : List ParamId) :
    (later.setParamList params callable).Extends table := by
  cases callable with
  | fn id => exact h.modify hc _
  | ctor id => exact h.modify hc _

end SymbolTable

/-- The state has everything that the program has, and its types are those of the
program and what substitution has made of them. -/
structure CopyState.Over (s : CopyState σ) (program : Program) : Prop where
  symbols : s.program.symbols.Extends program.symbols
  pool : Grown program.pool s.program.pool

/-- From one state to the next, the symbols `keys` were given copies that they did not
have, and everything else stayed: the records, the types and the other copies. -/
structure CopyState.Gains (s s' : CopyState σ) (keys : List Symbol) : Prop where
  symbols : s'.program.symbols.Extends s.program.symbols
  pool : Grown s.program.pool s'.program.pool
  kept : ∀ a c, s.map.copyOf? a = some c → s'.map.copyOf? a = some c
  gained : ∀ a, a ∈ s'.map.keys ↔ a ∈ s.map.keys ∨ a ∈ keys

/-- The copies that the state has are in the map, and its types are in the pool. -/
structure CopyState.Before (s : CopyState σ) (map : CopyMap) (pool : TypePool) : Prop where
  kept : ∀ a c, s.map.copyOf? a = some c → map.copyOf? a = some c
  pool : pool.Extends s.program.pool

/-- A symbol has a copy, and the record of the copy is what `form` gives for any copies and
types that are there later. -/
structure CopyState.Holds (s : CopyState σ) {k : Kind} (id : SymbolId k)
    (form : CopyMap → TypePool → Record k) : Prop where
  key : id.symbol ∈ s.map.keys
  record : ∀ map pool, s.Before map pool →
    s.program.symbols.get? (s.map.redirect id) = some (form map pool)

/-- The symbols are different and have no copies. -/
structure CopyState.Fresh (s : CopyState σ) (keys : List Symbol) : Prop where
  nodup : keys.Nodup
  not_copied : ∀ a ∈ keys, a ∉ s.map.keys

namespace CopyState

variable {s s₁ s₂ : CopyState σ} {program : Program} {keys keys' : List Symbol}

/-- Nothing is gained at first. -/
theorem Gains.refl (s : CopyState σ) : s.Gains s [] :=
  ⟨.refl _, .refl _, fun _ _ h => h, fun a => by simp⟩

/-- What is gained in two stretches, one after the other. -/
theorem Gains.trans (h : s.Gains s₁ keys) (h' : s₁.Gains s₂ keys') :
    s.Gains s₂ (keys ++ keys') where
  symbols := h.symbols.trans h'.symbols
  pool := h.pool.trans h'.pool
  kept a c ha := h'.kept a c (h.kept a c ha)
  gained a := by rw [h'.gained, h.gained, List.mem_append, or_assoc]

/-- A state over a program stays over it. -/
theorem Over.gains (h : s.Over program) (hg : s.Gains s₁ keys) : s₁.Over program :=
  ⟨h.symbols.trans hg.symbols, h.pool.trans hg.pool⟩

/-- A state comes before what it has itself. -/
theorem Before.refl (s : CopyState σ) : s.Before s.map s.program.pool := ⟨fun _ _ h => h, .refl _⟩

/-- What comes after the later state comes after the earlier one. -/
theorem Gains.before (h : s.Gains s₁ keys) {map : CopyMap} {pool : TypePool}
    (hl : s₁.Before map pool) : s.Before map pool :=
  ⟨fun a c ha => hl.kept a c (h.kept a c ha), h.pool.extends_.trans hl.pool⟩

/-- What has a copy is redirected to it by every later map. -/
theorem Before.redirect {map : CopyMap} {pool : TypePool} (h : s.Before map pool) {k : Kind}
    {id : SymbolId k} (hid : id.symbol ∈ s.map.keys) : map.redirect id = s.map.redirect id := by
  obtain ⟨c, hc⟩ := CopyMap.mem_keys.1 hid
  rw [← SymbolId.symbol_inj, ← CopyMap.image_symbol, ← CopyMap.image_symbol,
    CopyMap.image_of_copyOf? hc, CopyMap.image_of_copyOf? (h.kept _ _ hc)]

/-- A symbol that had a copy keeps that copy. -/
theorem Gains.redirect (h : s.Gains s₁ keys) {k : Kind} {id : SymbolId k}
    (hid : id.symbol ∈ s.map.keys) : s₁.map.redirect id = s.map.redirect id :=
  (h.before (.refl s₁)).redirect hid

/-- The record of a copy stays as it is. -/
theorem Holds.gains {k : Kind} {id : SymbolId k} {form : CopyMap → TypePool → Record k}
    (h : s.Holds id form) (hg : s.Gains s₁ keys) : s₁.Holds id form where
  key := (hg.gained _).2 (.inl h.key)
  record map pool hl := by
    rw [hg.redirect h.key]
    exact hg.symbols.get? (h.record map pool (hg.before hl))

/-- A record may be described in another form that is equal at every later state. -/
theorem Holds.congr {k : Kind} {id : SymbolId k} {form form' : CopyMap → TypePool → Record k}
    (h : s.Holds id form) (hform : ∀ map pool, s.Before map pool → form map pool = form' map pool) :
    s.Holds id form' :=
  ⟨h.key, fun map pool hl => hform map pool hl ▸ h.record map pool hl⟩

/-- Completing a callable does not touch its parameters. -/
theorem Holds.setParamList {p : ParamId} {form : CopyMap → TypePool → Record .param}
    (h : s.Holds p form) (params : List ParamId) (callable : Callable) :
    (s.withSymbols (s.program.symbols.setParamList params callable)).Holds p form :=
  ⟨h.key, fun map pool hl => (SymbolTable.get?_setParamList params callable _).trans
    (h.record map pool ⟨hl.kept, hl.pool⟩)⟩

/-- What is new as a whole is new in its first part. -/
theorem Fresh.of_append (h : s.Fresh (keys ++ keys')) : s.Fresh keys :=
  ⟨(List.nodup_append.1 h.nodup).1, fun a ha => h.not_copied a (List.mem_append_left _ ha)⟩

/-- Symbols that are given copies one after the other are fresh together. -/
theorem fresh_append (h : s.Gains s₁ keys) (hk : s.Fresh keys) :
    s₁.Fresh keys' ↔ s.Fresh (keys ++ keys') := by
  constructor
  · rintro ⟨hnodup, hcopied⟩
    refine ⟨List.nodup_append.2 ⟨hk.nodup, hnodup, ?_⟩, fun a ha hs => ?_⟩
    · rintro a ha _ hb rfl
      exact hcopied a hb ((h.gained a).2 (.inr ha))
    · rcases List.mem_append.1 ha with ha | ha
      · exact hk.not_copied a ha hs
      · exact hcopied a ha ((h.gained a).2 (.inl hs))
  · rintro ⟨hnodup, hcopied⟩
    obtain ⟨-, hnodup, hne⟩ := List.nodup_append.1 hnodup
    refine ⟨hnodup, fun a ha hs => ?_⟩
    rcases (h.gained a).1 hs with hs | hs
    · exact hcopied a (List.mem_append_right _ ha) hs
    · exact hne a hs a ha rfl

/-- Where nothing was given a copy, the same symbols are fresh. -/
theorem Gains.fresh_iff (h : s.Gains s₁ []) : s₁.Fresh keys ↔ s.Fresh keys :=
  fresh_append h ⟨.nil, nofun⟩

end CopyState

/-- The terms of a copy whose copies and types are given. -/
def CopyJob.terms (job : CopyJob σ) (subst : Option ParamSubst) (map : CopyMap)
    (pool : TypePool) : CopyTerms :=
  ⟨job.target, job.supertypes, map.toRenaming (outcome subst pool)⟩

/-- A symbol with the given record has a copy, whose record is the one that its role gives. -/
def CopyState.Reads (s : CopyState σ) (job : CopyJob σ) (subst : Option ParamSubst) {k : Kind}
    (id : SymbolId k) (role : CopyRole k) (r : Record k) : Prop :=
  ∃ name, s.Holds id fun map pool => role.record (job.terms subst map pool) name r

/-- The parameters of a callable have copies that belong to its copy. -/
def CopyState.ReadsParams (s : CopyState σ) (job : CopyJob σ) (subst : Option ParamSubst)
    (table : SymbolTable) (callable : Callable) : Prop :=
  ∀ p ∈ table.paramsOf callable, ∀ r, table.get? p = some r →
    s.Reads job subst p (.param callable p) r

namespace CopyJob

open CopyM CopyState

variable {job : CopyJob σ} {program : Program} {subst : Option ParamSubst} {s : CopyState σ}

/-- The action stopped because a name did not fit, or because `needed` does not hold. -/
def Fails (needed : Prop) (e : CopyFault) : Prop :=
  (∃ full, e = .rejected (.nameCapacity full)) ∨ (¬ needed ∧ ∃ why, e = .rejected why)

/-- A fault remains one of the kind expected if less was needed. -/
theorem Fails.imp {needed needed' : Prop} {e : CopyFault} (h : Fails needed e)
    (hn : needed' → needed) : Fails needed' e :=
  Or.imp id (fun ⟨h, hw⟩ => ⟨fun h' => h (hn h'), hw⟩) h

/-- Where nothing was given a copy before an action, it gains its keys from the earlier
state on. -/
theorem gains_from {m : CopyM σ α} {s s₁ : CopyState σ} {keys : List Symbol}
    {P : α → CopyState σ → Prop} (hg : s.Gains s₁ [])
    (h : Ends m s₁ (fun a s' => s₁.Fresh keys ∧ s₁.Gains s' keys ∧ P a s')
      (fun e _ => Fails (s₁.Fresh keys) e)) :
    Ends m s₁ (fun a s' => s.Fresh keys ∧ s.Gains s' keys ∧ s₁.Gains s' keys ∧ P a s')
      (fun e _ => Fails (s.Fresh keys) e) := by
  rw [hg.fresh_iff] at h
  exact h.imp (fun a s' ⟨hf, hg', hp⟩ => ⟨hf, hg.trans hg', hg', hp⟩) fun _ _ h => h

/-! ### Single actions -/

/-- A record of the program is read as it was. -/
theorem record_over (hs : s.Over program) {k : Kind} {id : SymbolId k} {r : Record k}
    (hr : program.symbols.get? id = some r) : record id s = .ok r s :=
  record_of_some (hs.symbols.get? hr)

/-- Substituting types gains nothing, and its value can be read in any later pool. -/
theorem Substitutes.gains {m : CopyM σ α} {ts : List TypeId} {value : (TypeId → TypeId) → α}
    (h : Substitutes program subst s.map m ts value) (hs : s.Over program) :
    Ends m s
      (fun a s' => s.Gains s' [] ∧
        ∀ later : TypePool, later.Extends s'.program.pool → a = value (outcome subst later))
      (fun _ _ => False) := by
  refine (h s rfl hs.pool).imp ?_ fun _ _ h => h
  rintro a s' ⟨pool, rfl, hp, hv⟩
  exact ⟨⟨.refl _, hp, fun _ _ h => h, fun a => by simp [withPool]⟩,
    fun later hl => (hv later hl).1⟩

/-- To substitute gains no copies and gives the outcome for the type. -/
theorem Over.substitute_gains (h : job.Over program subst) (hs : s.Over program) {t : TypeId}
    (ht : program.pool.Has t) :
    Ends (job.substitute t) s
      (fun t' s' => s.Gains s' [] ∧
        ∀ later : TypePool, later.Extends s'.program.pool → t' = outcome subst later t)
      (fun _ _ => False) :=
  Substitutes.gains (h.substitutes_substitute ht) hs

/-- To substitute in a type that may be missing gains no copies either. -/
theorem Over.substituteOption_gains (h : job.Over program subst) (hs : s.Over program)
    {t : Option TypeId} (ht : ∀ u ∈ t.toList, program.pool.Has u) :
    Ends (t.mapM job.substitute) s
      (fun t' s' => s.Gains s' [] ∧
        ∀ later : TypePool, later.Extends s'.program.pool → t' = t.map (outcome subst later))
      (fun _ _ => False) :=
  Substitutes.gains (Substitutes.option_mapM t fun u hu =>
    h.substitutes_substitute (ht u (Option.mem_toList.2 hu))) hs

/-- To draw a name gains no copies, and fails only if a name does not fit. -/
theorem freshName_gains (base : Name) (s : CopyState σ) :
    Ends (job.freshName base) s (fun _ s' => s.Gains s' [])
      (fun e _ => ∃ full, e = .rejected (.nameCapacity full)) := by
  refine (freshName_ends base s).imp ?_ fun _ _ h => h.1
  rintro name s' ⟨supply, rfl, -⟩
  exact ⟨.refl _, .refl _, fun _ _ h => h, fun a => by simp⟩

/-- A record that is added is there, under a symbol that was not. -/
theorem mint_gains {k : Kind} (r : Record k) (s : CopyState σ) :
    Ends (mint r) s
      (fun copy s' => s.Gains s' [] ∧ ¬ s.program.symbols.Allocated copy.symbol ∧
        s'.program.symbols.get? copy = some r)
      (fun _ _ => False) := by
  refine ⟨⟨s.program.symbols.add_extends r, .refl _, fun _ _ h => h, fun a => by simp⟩,
    Nat.lt_irrefl _, s.program.symbols.get?_add_self r⟩

/-- A symbol is given a copy if it has none. -/
theorem register_gains {k : Kind} [k.Copied] (id copy : SymbolId k) (s : CopyState σ) :
    Ends (register id copy) s
      (fun _ s' => s.Fresh [id.symbol] ∧ s.Gains s' [id.symbol] ∧ s'.map.redirect id = copy ∧
        s'.program = s.program)
      (fun e _ => Fails (s.Fresh [id.symbol]) e) := by
  unfold Ends register
  cases h : s.map.insert id copy with
  | ok map =>
    have hnone := CopyMap.copyOf?_of_insert h
    have hmap := CopyMap.copyOf?_insert h
    refine ⟨⟨List.nodup_singleton _, fun a ha => ?_⟩, ⟨.refl _, .refl _, fun a c ha => ?_,
      fun a => ?_⟩, ?_, rfl⟩
    · obtain rfl := List.mem_singleton.1 ha
      exact CopyMap.copyOf?_eq_none_iff.1 hnone
    · show map.copyOf? a = some c
      rw [hmap, if_neg]
      · exact ha
      · rintro rfl
        rw [hnone] at ha
        cases ha
    · show a ∈ map.keys ↔ _
      rw [(CopyMap.keys_insert h).mem_iff, List.mem_cons, List.mem_singleton, or_comm]
    · show map.redirect id = copy
      rw [← SymbolId.symbol_inj, ← CopyMap.image_symbol]
      exact CopyMap.image_of_copyOf? (by rw [hmap, if_pos rfl])
  | error e =>
    refine .inr ⟨fun hf => ?_, e, rfl⟩
    unfold CopyMap.insert at h
    split at h
    · rename_i hc
      exact hf.not_copied _ (.head _) (CopyMap.contains_iff.1 hc)
    · cases h

/-! ### Parameters -/

/-- The record of a parameter's copy that belongs to the callable `owner`. -/
def paramForm (subst : Option ParamSubst) (owner : Callable) (p : ParamId) (r : ParamRecord)
    (pool : TypePool) : ParamRecord :=
  { r with
    owner
    derivedFrom := some (r.root p)
    ty := outcome subst pool r.ty
    varargElement := r.varargElement.map (outcome subst pool) }

/-- Parameters of the program are given copies, in order. -/
theorem Over.mintParams_gains (h : job.Over program subst) (hs : s.Over program)
    (params : List ParamId) (hparams : ∀ p ∈ params, program.symbols.Allocated p.symbol)
    (owner : Callable) :
    Ends (job.mintParams params owner) s
      (fun copies s' => s.Fresh (params.map SymbolId.symbol) ∧
        s.Gains s' (params.map SymbolId.symbol) ∧ copies = params.map s'.map.redirect ∧
        ∀ p ∈ params, ∀ r, program.symbols.get? p = some r →
          s'.Holds p fun _ pool => paramForm subst owner p r pool)
      (fun e _ => Fails (s.Fresh (params.map SymbolId.symbol)) e) := by
  refine Ends.mapM (I := fun done copies s' => s.Fresh (done.map SymbolId.symbol) ∧
    s.Gains s' (done.map SymbolId.symbol) ∧ copies = done.map s'.map.redirect ∧
    ∀ p ∈ done, ∀ r, program.symbols.get? p = some r →
      s'.Holds p fun _ pool => paramForm subst owner p r pool) params
    ⟨⟨.nil, nofun⟩, .refl s, rfl, nofun⟩ ?_
  rintro done p rest hsplit copies s₁ ⟨hfresh, hg, rfl, hforms⟩
  have hp : p ∈ params := hsplit ▸ List.mem_append_right _ (.head _)
  obtain ⟨r, hr⟩ := SymbolTable.allocated_iff.1 (hparams p hp)
  have hs₁ := hs.gains hg
  refine Ends.bind (Ends.of_eq_ok (record_over hs₁ hr) ?_)
  refine Ends.bind ((h.substitute_gains hs₁ (h.closed.has hr (.head _))).imp
    (fun ty s₂ ⟨hg₂, hty⟩ => ?_) fun _ _ h => h.elim)
  have hs₂ := hs₁.gains hg₂
  refine Ends.bind ((h.substituteOption_gains hs₂ fun t ht =>
    h.closed.has hr (.tail _ ht)).imp (fun varargElement s₃ ⟨hg₃, hvararg⟩ => ?_)
      fun _ _ h => h.elim)
  refine Ends.bind ((mint_gains _ s₃).imp (fun copy s₄ ⟨hg₄, _, hcopied⟩ => ?_)
    fun _ _ h => h.elim)
  -- up to here nothing but the earlier parameters was given a copy
  have hg₁₄ : s₁.Gains s₄ [] := (hg₂.trans hg₃).trans hg₄
  have hg' : s.Gains s₄ (done.map SymbolId.symbol) := by simpa using hg.trans hg₁₄
  refine Ends.bind ((register_gains p copy s₄).imp ?_ ?_)
  · rintro - s₅ ⟨hf₅, hg₅, hcopy, -⟩
    rw [fresh_append hg' hfresh] at hf₅
    refine ⟨by simpa using hf₅, by simpa using hg'.trans hg₅, ?_, ?_⟩
    · rw [List.map_append, List.map_singleton, hcopy]
      congr 1
      refine List.map_congr_left fun q hq => ((hg₁₄.trans hg₅).redirect ?_).symm
      exact (hg.gained _).2 (.inr (List.mem_map_of_mem hq))
    · refine List.forall_mem_append.2 ⟨fun q hq r' hr' => ?_, List.forall_mem_singleton.2 ?_⟩
      · exact (hforms q hq r' hr').gains (hg₁₄.trans hg₅)
      · intro r' hr'
        obtain rfl : r = r' := Option.some.inj (hr.symm.trans hr')
        refine ⟨(hg₅.gained _).2 (.inr (.head _)), fun map pool hl => ?_⟩
        rw [hcopy, hg₅.symbols.get? hcopied, hty pool (hg₃.before (hg₄.before (hg₅.before hl))).pool,
          hvararg pool (hg₄.before (hg₅.before hl)).pool]
        rfl
  · intro e s₅ hfail
    rw [fresh_append hg' hfresh] at hfail
    refine hfail.imp fun hall => ?_
    have hprefix : s.Fresh ((done.map SymbolId.symbol ++ [p.symbol]) ++
        rest.map SymbolId.symbol) := by
      rw [hsplit] at hall
      simpa using hall
    exact hprefix.of_append

/-- A callable is added, completed with its parameters and recorded. -/
theorem Over.declare_gains (h : job.Over program subst) (hs : s.Over program) {k : Kind}
    [k.Copied] (id : SymbolId k) (r : Record k) (callable : SymbolId k → Callable)
    (hcallable : ∀ copy, (callable copy).symbol = copy.symbol)
    (withParams : List ParamId → Record k → Record k)
    (hset : ∀ (table : SymbolTable) params copy,
      table.setParamList params (callable copy) = table.modify copy (withParams params))
    (params : List ParamId) (hparams : ∀ p ∈ params, program.symbols.Allocated p.symbol) :
    Ends
      (do
        let copy ← mint r
        setParamList (callable copy) (← job.mintParams params (callable copy))
        register id copy) s
      (fun _ s' => s.Fresh (params.map SymbolId.symbol ++ [id.symbol]) ∧
        s.Gains s' (params.map SymbolId.symbol ++ [id.symbol]) ∧
        s'.program.symbols.paramList (callable (s'.map.redirect id)) =
          .ok (params.map s'.map.redirect) ∧
        s'.Holds id (fun map _ => withParams (params.map map.redirect) r) ∧
        ∀ p ∈ params, ∀ r, program.symbols.get? p = some r →
          s'.Holds p fun map pool => paramForm subst (callable (map.redirect id)) p r pool)
      (fun e _ => Fails (s.Fresh (params.map SymbolId.symbol ++ [id.symbol])) e) := by
  refine Ends.bind ((mint_gains r s).imp (fun copy s₁ ⟨hg₁, hnew, hr⟩ => ?_) fun _ _ h => h.elim)
  have hthere : s₁.program.symbols.Allocated (callable copy).symbol := by
    rw [hcallable]
    exact SymbolTable.allocated_iff.2 ⟨r, hr⟩
  refine Ends.bind ((h.mintParams_gains (hs.gains hg₁) params hparams (callable copy)).imp
    (fun copies s₂ ⟨hf₂, hg₂, hcopies, hforms⟩ => ?_) fun e s₂ hfail => ?_)
  · rw [hg₁.fresh_iff] at hf₂
    have hg₁₂ : s.Gains s₂ (params.map SymbolId.symbol) := hg₁.trans hg₂
    -- the callable that is completed was not there before
    have hg₃ : s.Gains (s₂.withSymbols (s₂.program.symbols.setParamList copies (callable copy)))
        (params.map SymbolId.symbol) :=
      ⟨hg₁₂.symbols.setParamList (hcallable copy ▸ hnew) copies, hg₁₂.pool, hg₁₂.kept,
        hg₁₂.gained⟩
    refine Ends.bind (Ends.of_eq_ok
      (show setParamList (callable copy) copies s₂ = .ok () _ from rfl)
      ((register_gains id copy (s₂.withSymbols _)).imp ?_ ?_))
    · rintro - s₄ ⟨hf₄, hg₄, hcopy, hprogram⟩
      rw [fresh_append hg₃ hf₂] at hf₄
      have hkey : ∀ p ∈ params, p.symbol ∈ s₂.map.keys := fun p hp =>
        (hg₃.gained _).2 (.inr (List.mem_map_of_mem hp))
      have hid : id.symbol ∈ s₄.map.keys := (hg₄.gained _).2 (.inr (.head _))
      refine ⟨hf₄, hg₃.trans hg₄, ?_, ⟨hid, fun map pool hl => ?_⟩, fun p hp r' hr' => ?_⟩
      · rw [hcopy, hprogram]
        have hlist := SymbolTable.paramList_setParamList (hg₂.symbols.allocated hthere) copies
        refine hlist.trans (congrArg Except.ok ?_)
        rw [hcopies]
        exact List.map_congr_left fun p hp => (hg₄.redirect (hkey p hp)).symm
      · have hself := s₂.program.symbols.get?_modify_self copy (withParams copies)
        rw [hg₂.symbols.get? hr, ← hset] at hself
        rw [hcopy, hprogram]
        refine hself.trans (congrArg some (congrArg (withParams · r) ?_))
        rw [hcopies]
        exact List.map_congr_left fun p hp => ((hg₄.before hl).redirect (hkey p hp)).symm
      · refine (((hforms p hp r' hr').setParamList copies (callable copy)).gains hg₄).congr
          fun map pool hl => ?_
        rw [hl.redirect hid, hcopy]
    · intro e s₄ hfail
      rwa [fresh_append hg₃ hf₂] at hfail
  · rw [hg₁.fresh_iff] at hfail
    exact hfail.imp Fresh.of_append

end CopyJob

end Graft
