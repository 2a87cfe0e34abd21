/-
# The names that a copy takes

A copy takes at most one generated name for each declaration below the root
(`CopyJob.takes_copyDeclarations`).  So it does not run out of names where the interner has
room for that many (`Copier.copy_room`).  Nor does the first pass report a dangling mention:
there is nothing yet that could dangle.
-/

import Graft.Proofs.Copy.Acceptance

namespace Graft

variable {σ α β : Type}

/-- The number of strings that are interned. -/
def CopyState.nameCount (s : CopyState σ) : Nat := s.program.supply.names.size

/-- The action takes at most `n` names.  Wherever it stops, the reason is no dangling
mention, and no name that does not fit, if there was room for `n` names. -/
def CopyM.Takes (m : CopyM σ α) (n : Nat) : Prop :=
  ∀ s, Ends m s (fun _ s' => s'.nameCount ≤ s.nameCount + n) fun e _ =>
    (∀ a, e ≠ .rejected (.dangling a)) ∧
      ∀ full, e = .rejected (.nameCapacity full) → Interner.maxName + 1 < s.nameCount + n

namespace CopyM

variable {k : Kind} {n n' : Nat} {m : CopyM σ α} {f : α → CopyM σ β}

/-- An action may be said to take more names than it does. -/
theorem Takes.mono (hm : Takes m n) (h : n ≤ n') : Takes m n' := fun s =>
  (hm s).imp (fun _ _ hs => Nat.le_trans hs (Nat.add_le_add_left h _)) fun _ _ ⟨hd, hfull⟩ =>
    ⟨hd, fun full he => Nat.lt_of_lt_of_le (hfull full he) (Nat.add_le_add_left h _)⟩

/-- To return a value takes no name. -/
theorem takes_pure (a : α) : Takes (pure a : CopyM σ α) 0 := fun s => Nat.le_refl s.nameCount

/-- Two actions take the names of both. -/
theorem Takes.bind (hm : Takes m n) (hf : ∀ a, Takes (f a) n') : Takes (m >>= f) (n + n') := by
  intro s
  refine Ends.bind ((hm s).imp (fun a s₁ h₁ => ?_) fun _ _ ⟨hd, hfull⟩ => ⟨hd, fun full he => ?_⟩)
  · refine (hf a s₁).imp (fun _ s₂ h₂ => ?_) fun _ _ ⟨hd, hfull⟩ => ⟨hd, fun full he => ?_⟩
    · exact Nat.le_trans h₂ (by omega)
    · exact Nat.lt_of_lt_of_le (hfull full he) (by omega)
  · exact Nat.lt_of_lt_of_le (hfull full he) (by omega)

/-- What takes no names may be done before. -/
theorem Takes.after (hm : Takes m 0) (hf : ∀ a, Takes (f a) n) : Takes (m >>= f) n := by
  have h := hm.bind hf
  rwa [Nat.zero_add] at h

/-- Actions over a list take no names if each takes none. -/
theorem Takes.mapM {f : α → CopyM σ β} {xs : List α} (hf : ∀ x ∈ xs, Takes (f x) 0) :
    Takes (xs.mapM f) 0 := by
  induction xs with
  | nil => exact takes_pure []
  | cons x xs ih =>
    rw [List.mapM_cons]
    exact (hf x (.head _)).after fun _ => (ih fun y hy => hf y (.tail _ hy)).after fun _ =>
      takes_pure _

/-- An action on a value that may be missing takes no names. -/
theorem Takes.option_mapM {f : α → CopyM σ β} (hf : ∀ a, Takes (f a) 0) (x : Option α) :
    Takes (x.mapM f) 0 := by
  cases x with
  | none => exact takes_pure none
  | some y => exact (hf y).after fun _ => takes_pure _

/-- A rejection takes no name, if it is no dangling mention and not about the names themselves. -/
theorem takes_reject {why : Rejection} (hd : ∀ a, why ≠ .dangling a)
    (hfull : ∀ full, why ≠ .nameCapacity full) : Takes (reject why : CopyM σ α) 0 := fun _ =>
  ⟨fun a he => hd a (CopyFault.rejected.inj he),
    fun full he => absurd (CopyFault.rejected.inj he) (hfull full)⟩

/-- To read a record takes no name. -/
theorem takes_record (id : SymbolId k) : Takes (record id : CopyM σ (Record k)) 0 := by
  intro s
  cases h : s.program.symbols.get? id with
  | some r => exact Ends.of_eq_ok (record_of_some h) (Nat.le_refl _)
  | none => exact Ends.of_eq_error (record_of_none h) ⟨nofun, nofun⟩

/-- To make a record takes no name. -/
theorem takes_mint (r : Record k) : Takes (mint r : CopyM σ (SymbolId k)) 0 :=
  fun s => Nat.le_refl s.nameCount

/-- To complete a record takes no name. -/
theorem takes_complete (id : SymbolId k) (f : Record k → Record k) :
    Takes (complete id f : CopyM σ Unit) 0 := fun s => Nat.le_refl s.nameCount

/-- To set a list of parameters takes no name. -/
theorem takes_setParamList (callable : Callable) (params : List ParamId) :
    Takes (setParamList callable params : CopyM σ Unit) 0 := fun s => Nat.le_refl s.nameCount

/-- To read the copies takes no name. -/
theorem takes_copies : Takes (copies : CopyM σ CopyMap) 0 := fun s => Nat.le_refl s.nameCount

/-- To register a copy takes no name. -/
theorem takes_register [k.Copied] (id copy : SymbolId k) :
    Takes (register id copy : CopyM σ Unit) 0 := by
  intro s
  unfold Ends register
  cases h : s.map.insert id copy with
  | ok map => exact Nat.le_refl s.nameCount
  | error e =>
    unfold CopyMap.insert at h
    split at h
    · cases h
      exact ⟨nofun, nofun⟩
    · cases h

end CopyM

/-- Interning adds one string at most, and there is room for one unless all names are taken. -/
theorem Interner.intern_size (names : Interner) (s : String) :
    (∀ n names', names.intern s = .ok (n, names') → names'.size ≤ names.size + 1) ∧
      ∀ e, names.intern s = .error e → maxName < names.size := by
  refine ⟨fun n names' h => ?_, fun e h => ?_⟩
  · rcases intern_cases h with ⟨-, rfl⟩ | ⟨-, -, -, rfl⟩
    · exact Nat.le_succ _
    · exact Nat.le_of_eq (Array.size_push _)
  · cases hfind : names.find? s with
    | some n =>
      rw [intern_of_find? hfind] at h
      cases h
    | none =>
      rw [intern_of_new hfind] at h
      split at h
      · cases h
      · rename_i hfull
        exact Nat.lt_of_not_le hfull

namespace CopyJob

open CopyM
open Node (declaredBy)

variable (job : CopyJob σ)

/-- To substitute takes no name. -/
theorem takes_substitute (t : TypeId) : Takes (job.substitute t) 0 := by
  intro s
  unfold Ends substitute
  dsimp only
  cases Substitutor.applyOrKeep job.substitutor t (s.program.pool, s.memory) with
  | ok t' u => exact Nat.le_refl s.nameCount
  | error e u => exact ⟨nofun, nofun⟩

/-- Here names are taken. -/
theorem takes_freshName (base : Name) : Takes (job.freshName base) 1 := by
  intro s
  obtain ⟨hok, hfull⟩ := s.program.supply.names.intern_size
    (job.scheme.text (s.program.supply.names.lookup base) s.program.supply.next)
  unfold Ends freshName NameScheme.fresh NameSupply.take
  dsimp only
  cases h : s.program.supply.names.intern (job.scheme.text (s.program.supply.names.lookup base)
      s.program.supply.next) with
  | ok r => exact hok r.1 r.2 h
  | error e => exact ⟨nofun, fun _ _ => Nat.succ_lt_succ (hfull e h)⟩

/-- The parameters of a callable take no names. -/
theorem takes_mintParams (params : List ParamId) (owner : Callable) :
    Takes (job.mintParams params owner) 0 :=
  Takes.mapM fun param _ => (takes_record param).after fun r =>
    (job.takes_substitute r.ty).after fun _ =>
      (Takes.option_mapM job.takes_substitute r.varargElement).after fun _ =>
        (takes_mint _).after fun copy => (takes_register param copy).after fun _ => takes_pure copy

/-- A callable is completed with its parameters and then recorded. -/
theorem takes_finish {k : Kind} [k.Copied] (id copy : SymbolId k) (callable : Callable)
    (params : List ParamId) :
    Takes (do
      setParamList callable (← job.mintParams params callable)
      register id copy : CopyM σ Unit) 0 :=
  (job.takes_mintParams params callable).after fun copies =>
    (takes_setParamList callable copies).after fun _ => takes_register id copy

/-- A generic callable is rejected, and what would come after that is not done. -/
theorem takes_generic (a : Symbol) (count n : Nat) (f : α → CopyM σ β) :
    Takes (reject (.generic a count) >>= f) n := by
  have h : Takes (reject (.generic a count) : CopyM σ β) 0 :=
    takes_reject (by rintro _ ⟨⟩) (by rintro _ ⟨⟩)
  exact h.mono (Nat.zero_le n)

/-- A function takes one name. -/
theorem takes_mintFunction (function : FunctionId) : Takes (job.mintFunction function) 1 := by
  refine (takes_record function).after fun r => ?_
  dsimp only
  split
  · exact takes_generic _ _ _ _
  · exact (job.takes_freshName r.name).bind fun _ => (job.takes_substitute _).after fun _ =>
      (Takes.option_mapM job.takes_substitute _).after fun _ => (takes_mint _).after fun copy =>
        job.takes_finish function copy (.fn copy) r.params

/-- A constructor takes no name. -/
theorem takes_mintConstructor (constructor : ConstructorId) :
    Takes (job.mintConstructor constructor) 0 := by
  refine (takes_record constructor).after fun r => takes_copies.after fun map => ?_
  split
  · dsimp only
    split
    · exact takes_generic _ _ _ _
    · exact (job.takes_substitute _).after fun _ =>
        (Takes.option_mapM job.takes_substitute _).after fun _ => (takes_mint _).after fun copy =>
          job.takes_finish constructor copy (.ctor copy) r.params
  · exact takes_reject (by rintro _ ⟨⟩) (by rintro _ ⟨⟩)

/-- An operator takes no name. -/
theorem takes_mintInvoke (invoke : FunctionId) : Takes (job.mintInvoke invoke) 0 :=
  (takes_record invoke).after fun r => (job.takes_substitute _).after fun _ =>
    (takes_mint _).after fun copy => job.takes_finish invoke copy (.fn copy) r.params

/-- A variable takes one name. -/
theorem takes_mintVariable (variableId : VariableId) : Takes (job.mintVariable variableId) 1 :=
  (takes_record variableId).after fun r => (job.takes_freshName r.name).bind fun _ =>
    (job.takes_substitute r.ty).after fun _ => (takes_mint _).after fun copy =>
      takes_register variableId copy

/-- A node takes as many names as it declares symbols that have names. -/
theorem takes_mintOwn (n : Node) : Takes (job.mintOwn n) (declaredBy [n]).length := by
  unfold mintOwn
  split
  · exact job.takes_mintFunction _
  · exact (job.takes_mintConstructor _).mono (Nat.zero_le 1)
  · exact job.takes_mintVariable _
  · refine (takes_record _).after fun r => takes_copies.after fun map => ?_
    split
    · exact job.takes_mintInvoke _
    · exact takes_pure _
  · exact (takes_pure _).mono (Nat.zero_le _)

/-- The supertypes of a class take no names. -/
theorem takes_copySupertypes (r : ClassRecord) : Takes (job.copySupertypes r) 0 := by
  unfold copySupertypes
  split
  · exact Takes.mapM fun t _ => job.takes_substitute t
  · exact takes_pure _

/-- A class takes one name when it is met. -/
theorem takes_openClass (cls : ClassId) : Takes (job.openClass cls) 1 := by
  rw [openClass_eq]
  refine (takes_record cls).after fun r => (job.takes_copySupertypes r).after fun supertypes => ?_
  exact (job.takes_freshName r.name).bind fun _ => (takes_mint _).after fun copy =>
    (takes_register cls copy).after fun _ => takes_pure _

/-- To read the copy of a constructor takes no name. -/
theorem takes_copiedConstructor (cls : ClassId) (constructor : ConstructorId) :
    Takes (copiedConstructor cls constructor : CopyM σ ConstructorId) 0 := by
  refine takes_copies.after fun map => ?_
  split
  · exact takes_pure _
  · exact takes_reject (by rintro _ ⟨⟩) (by rintro _ ⟨⟩)

/-- A class takes no name when its members are done. -/
theorem takes_closeClass (cls : ClassId) (r : ClassRecord) (copy : ClassId) :
    Takes (closeClass cls r copy : CopyM σ Unit) 0 :=
  (Takes.mapM fun c _ => takes_copiedConstructor cls c).after fun _ =>
    (Takes.option_mapM (takes_copiedConstructor cls) r.primary).after fun _ => takes_complete copy _

/-- The number of symbols declared by two lists of nodes. -/
theorem length_declaredBy_append (ns ms : List Node) :
    (declaredBy (ns ++ ms)).length = (declaredBy ns).length + (declaredBy ms).length := by
  rw [declaredBy, List.filterMap_append, List.length_append, declaredBy, declaredBy]

/-- Trees are copied one after the other. -/
theorem takes_forM {ns : List Node} (h : ∀ n ∈ ns,
      Takes (job.copyDeclarations n) (declaredBy (n :: n.descendants)).length) :
    Takes (forM ns job.copyDeclarations) (declaredBy (Node.preorder ns)).length := by
  induction ns with
  | nil => exact takes_pure _
  | cons n ns ih =>
    rw [Node.preorder_cons, ← List.cons_append, length_declaredBy_append]
    exact (h n (.head _)).bind fun _ => ih fun m hm => h m (.tail _ hm)

/-- **The first pass takes one name for each declaration at most.** -/
theorem takes_copyDeclarations (n : Node) :
    Takes (job.copyDeclarations n) (declaredBy (n :: n.descendants)).length := by
  induction n using Node.induction_children with
  | step n ih =>
    have below := job.takes_forM ih
    rw [Node.preorder_children] at below
    rw [copyDeclarations_eq, ← List.singleton_append, length_declaredBy_append]
    split
    · exact (job.takes_openClass _).bind fun opened => below.bind fun _ =>
        takes_closeClass _ opened.1 opened.2
    · exact (job.takes_mintOwn n).bind fun _ => below

/-- So does a first pass below a root. -/
theorem takes_firstPass (root : Node) :
    Takes (forM root.children job.copyDeclarations) (declaredBy root.descendants).length := by
  rw [← Node.preorder_children]
  exact job.takes_forM fun c _ => job.takes_copyDeclarations c

end CopyJob

/-- The interner has room for a name for each declaration below the root. -/
def Program.HasRoom (program : Program) (root : Node) : Prop :=
  program.supply.names.size + (Node.declaredBy root.descendants).length ≤ Interner.maxName + 1

instance (program : Program) (root : Node) : Decidable (program.HasRoom root) :=
  inferInstanceAs (Decidable (_ ≤ _))

namespace Copier

open CopyJob

/-- **A copy does not run out of names** where there is room for one for each declaration
below the root. -/
theorem copy_room {program : Program} {subst : Option ParamSubst} {target : FunctionId}
    (options : CopyOptions) {root : Node} (inlined : String) (memory : σ)
    (hclosed : program.Closed) (hroot : root.ClosedIn program)
    (hwithin : ∀ s ∈ subst, s.Within program.pool)
    (hroom : program.HasRoom root) :
    Ends ((ofParams target subst options).copy root inlined) (program, memory)
      (fun _ _ => True) (fun e _ => ∀ full, e ≠ .rejected (.nameCapacity full)) := by
  have hover := over_job (σ := σ) target options inlined hclosed hwithin
  refine copy_ends (actions_ends _ (fun _ => ?_) fun _ _ he => nomatch he)
  refine Ends.bind (((takes_firstPass _ root _).and (firstPass_steps _ root _)).imp
    (fun _ s₁ ⟨_, hsteps⟩ => ?_) fun e s₁ ⟨⟨_, hfull⟩, _⟩ full he => ?_)
  · refine (secondPass_ends _ hover root (fun n hn => hroot.below hn) s₁
      (Steps.pool_grown rfl hsteps)).imp (fun _ _ _ => trivial) ?_
    rintro e s₂ ⟨a, pool, rfl, -⟩ full he
    cases he
  · exact Nat.not_lt_of_le hroom (hfull full he)

end Copier

end Graft
