/-
# The records of the copies

While a copy is under way the records that it has added are incomplete: a callable has no
parameters yet and a class no constructors, and parameters are there before their callable.  When
it has succeeded, the record of every copy is complete, and it is told by the record that was
copied and by the role of the symbol below the root (`Copier.copy_completes`).  Each role keeps,
drops and rewrites fields of its own (`CopyReport.Completes`); nothing that is added later
disturbs them.
-/

import Graft.Proofs.Copy.Composition
import Graft.Proofs.Copy.Naming

namespace Graft

open ParamSubst (outcome)

variable {σ : Type} {k : Kind}

/-! ### What the records are to be -/

/-- A copy that has succeeded: the programs before and after it, its map and its terms. -/
structure CopyReport where
  before : Program
  after : Program
  map : CopyMap
  target : FunctionId
  scheme : NameScheme
  supertypes : SupertypeRule
  subst : Option ParamSubst

namespace CopyReport

variable (report : CopyReport)

/-- The name was made of the name `base`: its text is the generated one of what `base` stood for
when the name was drawn, with the number that was drawn. -/
def Generated (base name : Name) : Prop :=
  ∃ middle : NameSupply, report.before.supply.DrawnAt middle report.after.supply ∧
    report.after.lookup name = report.scheme.text (middle.names.lookup base) middle.next

/-- The later type stands for the tree of the earlier one with its parameters replaced, and for
the same tree if the substitution does not fit or there is none. -/
def Becomes (t t' : TypeId) : Prop :=
  report.after.pool.Has t' ∧
    report.after.pool.unfold t' = ParamSubst.made report.subst report.before.pool t

/-- The later supertypes are what the earlier ones become, in order, or the top type alone. -/
def SupertypesBecome (ts ts' : List TypeId) : Prop :=
  match report.supertypes with
  | .substitute => List.Forall₂ report.Becomes ts ts'
  | .top => ts' = [.any]

/-- The second symbol is recorded as the copy of the first. -/
def IsCopy (id copy : SymbolId k) : Prop := report.map.get? id = some copy

/-- In the role, a copy of the first record ends as the second. -/
inductive Completes : {k : Kind} → CopyRole k → Record k → Record k → Prop
  | cls {r : ClassRecord} {name supertypes constructors primary}
      (hname : report.Generated r.name name)
      (hsupertypes : report.SupertypesBecome r.supertypes supertypes)
      (hconstructors : List.Forall₂ report.IsCopy r.constructors constructors)
      (hprimary : Option.Rel report.IsCopy r.primary primary) :
      Completes .cls r
        { r with name, owner := .fn report.target, supertypes, constructors, primary }
  | fn {r : FunctionRecord} {name params returnType extensionReceiver}
      (hname : report.Generated r.name name)
      (hparams : List.Forall₂ report.IsCopy r.params params)
      (hreturn : report.Becomes r.returnType returnType)
      (hextension : Option.Rel report.Becomes r.extensionReceiver extensionReceiver) :
      Completes .fn r
        { r with
          name, owner := .fn report.target, kind := .synthesized, typeParams := [], params
          returnType, extensionReceiver, dispatchReceiver := none, isInline := false }
  /-- An `invoke` operator keeps its receivers, too. -/
  | invoke {r : FunctionRecord} {params returnType}
      (hparams : List.Forall₂ report.IsCopy r.params params)
      (hreturn : report.Becomes r.returnType returnType) :
      Completes .invoke r { r with params, returnType }
  | ctor {r : ConstructorRecord} {cls params returnType dispatchReceiver}
      (hcls : report.IsCopy r.cls cls)
      (hparams : List.Forall₂ report.IsCopy r.params params)
      (hreturn : report.Becomes r.returnType returnType)
      (hdispatch : Option.Rel report.Becomes r.dispatchReceiver dispatchReceiver) :
      Completes .ctor r { r with cls, typeParams := [], params, returnType, dispatchReceiver }
  | var {r : VariableRecord} {name ty} (hname : report.Generated r.name name)
      (hty : report.Becomes r.ty ty) :
      Completes .var r { r with name, owner := .fn report.target, ty }
  | param {callable owner : Callable} {self : ParamId} {r : ParamRecord} {ty varargElement}
      (howner : report.map.callable? callable = some owner) (hty : report.Becomes r.ty ty)
      (hvararg : Option.Rel report.Becomes r.varargElement varargElement) :
      Completes (.param callable self) r
        { r with owner, derivedFrom := some (r.root self), ty, varargElement }

end CopyReport

/-! ### What the records name -/

namespace CopyMap

variable {map : CopyMap}

/-- A symbol that is a key has a copy. -/
theorem get?_of_mem_keys {id : SymbolId k} (h : id.symbol ∈ map.keys) :
    map.get? id = some (map.redirect id) := by
  rw [redirect]
  cases hget : map.get? id with
  | some copy => rfl
  | none => exact absurd h (get?_eq_none_iff.1 hget)

/-- A callable that is a key has a copy. -/
theorem callable?_of_mem_keys {callable : Callable} (h : callable.symbol ∈ map.keys) :
    map.callable? callable = some (map.redirectCallable callable) := by
  cases callable with
  | fn id | ctor id => rw [callable?, get?_of_mem_keys h, Option.map_some, redirectCallable]

end CopyMap

namespace Node

variable {table : SymbolTable} {root : Node}

/-- Where a tree can be copied, every node that declares something gets what it needs. -/
theorem Lawful.of_declared (h : Lawful table [] root.children) {a : Symbol}
    (ha : a ∈ declaredBy root.descendants) :
    ∃ n before after, n.declared? = some a ∧ Admits table before n ∧ Closes table after n ∧
      before ⊆ root.descendants ∧ after ⊆ root.descendants := by
  obtain ⟨n, hn, hdeclared⟩ := List.mem_filterMap.1 ha
  obtain ⟨before, rest, hsplit⟩ := List.append_of_mem hn
  rw [← preorder_children] at hsplit
  obtain ⟨rest, rfl⟩ := descendants_follow hsplit
  obtain ⟨hadmits, hcloses⟩ := h before n rest hsplit
  rw [preorder_children] at hsplit
  refine ⟨n, _, _, hdeclared, hadmits, hcloses, ?_, ?_⟩
  · rw [hsplit]
    exact List.subset_append_left _ _
  · rw [hsplit, ← List.cons_append, ← List.append_assoc]
    exact List.subset_append_left _ _

/-- **What the record of a copy names was copied.** -/
theorem Plays.symbols_subset_keys {program : Program} {id : SymbolId k} {role : CopyRole k}
    {r : Record k} (h : root.Plays program.symbols id role)
    (hlawful : Lawful program.symbols [] root.children) (hr : program.symbols.get? id = some r) :
    role.symbols r ⊆ root.keys program.symbols := by
  have hparams : ∀ (c : Callable) (ps : List ParamId), c.symbol ∈ root.keys program.symbols →
      program.symbols.paramsOf c = ps → ps.map SymbolId.symbol ⊆ root.keys program.symbols := by
    rintro c _ hc rfl
    refine List.Subset.trans (fun a ha => ?_) (withParams_subset_bringsAll hc)
    obtain ⟨p, hp, rfl⟩ := List.mem_map.1 ha
    exact SymbolTable.mem_withParams_iff.2 (.inl ⟨p, hp, rfl⟩)
  have hmono : ∀ {met : List Node}, met ⊆ root.descendants →
      bringsAll program.symbols met ⊆ root.keys program.symbols := by
    intro met hmet a ha
    obtain ⟨n, hn, hbrings⟩ := List.mem_flatMap.1 ha
    exact List.mem_flatMap.2 ⟨n, hmet hn, hbrings⟩
  have hkey := h.key
  cases h with
  | declared hid hrole =>
    cases k with
    | param | typeParam => cases hrole
    | var => cases hrole; exact List.nil_subset _
    | fn => cases hrole; exact hparams (.fn id) _ hkey (SymbolTable.paramsOf_fn hr)
    | cls =>
      cases hrole
      -- a class is closed when its constructors are there
      obtain ⟨n, before, after, hn, -, hcloses, -, hafter⟩ := hlawful.of_declared hid
      cases n with
      | classDecl span origin cls members =>
        obtain rfl : cls = id := SymbolId.symbol_inj.1 (Option.some.inj hn)
        intro a ha
        obtain ⟨c, hc, rfl⟩ := List.mem_map.1 ha
        exact hmono hafter (hcloses r hr c hc)
      | _ => cases hn
    | ctor =>
      cases hrole
      -- a constructor is admitted after its class
      obtain ⟨n, before, after, hn, hadmits, -, hbefore, -⟩ := hlawful.of_declared hid
      cases n with
      | constructorDecl span origin constructor body =>
        obtain rfl : constructor = id := SymbolId.symbol_inj.1 (Option.some.inj hn)
        exact List.cons_subset.2 ⟨hmono hbefore (hadmits.1 r hr),
          hparams (.ctor constructor) _ hkey (SymbolTable.paramsOf_ctor hr)⟩
      | _ => cases hn
  | @invoke id => exact hparams (.fn id) _ hkey (SymbolTable.paramsOf_fn hr)
  | param hcallable => exact List.cons_subset.2 ⟨hcallable, List.nil_subset _⟩

end Node

/-! ### What the records are -/

namespace CopyReport

variable {report : CopyReport} {τ : TypeId → TypeId}

/-- Symbols that are keys are listed with their copies. -/
theorem forall₂_isCopy {ids : List (SymbolId k)}
    (h : ids.map SymbolId.symbol ⊆ report.map.keys) :
    List.Forall₂ report.IsCopy ids (ids.map report.map.redirect) := by
  rw [List.forall₂_map_right_iff, List.forall₂_same]
  exact fun id hid => CopyMap.get?_of_mem_keys (h (List.mem_map_of_mem hid))

/-- An optional value is related to its image if its value is. -/
theorem rel_map {α β : Type} {R : α → β → Prop} {f : α → β} {x : Option α}
    (h : ∀ a ∈ x, R a (f a)) : Option.Rel R x (x.map f) := by
  cases x with
  | none => exact .none
  | some a => exact .some (h a rfl)

/-- **What a role gives is a complete record,** if what it names was copied, the types that it
exchanges become others and a name of its own was made of the one that was there. -/
theorem completes_record {role : CopyRole k} {r : Record k} {name : Name}
    (hsymbols : role.symbols r ⊆ report.map.keys)
    (htypes : ∀ t ∈ role.types report.supertypes r, report.Becomes t (τ t))
    (hnames : ∀ base n, Record.baseName? k r = some base → Record.mintedName? k
      (role.record ⟨report.target, report.supertypes, report.map.toRenaming τ⟩ name r) = some n →
        report.Generated base n) :
    report.Completes role r
      (role.record ⟨report.target, report.supertypes, report.map.toRenaming τ⟩ name r) := by
  have hoption : ∀ ts : Option TypeId, ts.toList ⊆ role.types report.supertypes r →
      Option.Rel report.Becomes ts (ts.map τ) :=
    fun ts hts => rel_map fun t ht => htypes t (hts (Option.mem_toList.2 ht))
  cases role with
  | cls =>
    obtain ⟨hconstructors, hprimary⟩ :
        r.constructors.map SymbolId.symbol ⊆ report.map.keys ∧
          r.primary.toList.map SymbolId.symbol ⊆ report.map.keys := by
      rw [← List.append_subset, ← List.map_append]
      exact hsymbols
    refine .cls (hnames r.name name rfl rfl) ?_ (forall₂_isCopy hconstructors) ?_
    · rw [SupertypesBecome]
      cases hrule : report.supertypes with
      | top => rfl
      | substitute =>
        simp only [CopyRole.types, hrule] at htypes
        exact List.forall₂_map_right_iff.2 (List.forall₂_same.2 htypes)
    · exact rel_map fun c hc => CopyMap.get?_of_mem_keys
        (hprimary (List.mem_map_of_mem (Option.mem_toList.2 hc)))
  | fn =>
    exact .fn (hnames r.name name rfl rfl) (forall₂_isCopy hsymbols) (htypes _ (.head _))
      (hoption _ (List.subset_cons_self _ _))
  | invoke => exact .invoke (forall₂_isCopy hsymbols) (htypes _ (.head _))
  | ctor =>
    obtain ⟨hcls, hparams⟩ := List.cons_subset.1 hsymbols
    exact .ctor (CopyMap.get?_of_mem_keys hcls) (forall₂_isCopy hparams) (htypes _ (.head _))
      (hoption _ (List.subset_cons_self _ _))
  | var => exact .var (hnames r.name name rfl rfl) (htypes _ (.head _))
  | param callable self =>
    exact .param (CopyMap.callable?_of_mem_keys (hsymbols (.head _))) (htypes _ (.head _))
      (hoption _ (List.subset_cons_self _ _))

end CopyReport

namespace Copier

open CopyJob CopyState

variable {program after : Program} {memory memory' : σ} {target : FunctionId}
  {subst : Option ParamSubst} {options : CopyOptions} {root : Node} {inlined : String}
  {copied : Copied}

/-- The report of a copy. -/
def report (target : FunctionId) (subst : Option ParamSubst) (options : CopyOptions)
    (inlined : String) (program after : Program) (copied : Copied) : CopyReport where
  before := program
  after
  map := copied.map
  target
  scheme := ⟨program.lookup ((program.symbols.get? target).elim .empty (·.name)), inlined⟩
  supertypes := options.supertypes
  subst

/-- **Every copy is complete in the end.**  Copy a closed tree of a closed program.  Whatever
symbol the map gives a copy to played a role below the root; its record is still what it was; and
the record of its copy is the one that the role gives, in every field.  Classes, declared functions
and variables are named by generated names and live in the target; types are substituted once; and
the parameters and constructors that a copy lists are the copies of those that its original lists,
in their order. -/
theorem copy_completes (hclosed : program.Closed) (hsound : program.pool.Sound)
    (htop : program.pool.Has .any) (hroot : root.ClosedIn program)
    (hwithin : ∀ s ∈ subst, s.Within program.pool)
    (hcopy : (ofParams target subst options).copy root inlined (program, memory) =
      .ok copied (after, memory')) (id copy : SymbolId k)
    (hpair : (id.symbol, copy.symbol) ∈ copied.map.pairs) :
    ∃ r r', program.symbols.get? id = some r ∧ after.symbols.get? id = some r ∧
      after.symbols.get? copy = some r' ∧ (∃ role, root.Plays program.symbols id role) ∧
      ∀ role, root.Plays program.symbols id role →
        (report target subst options inlined program after copied).Completes role r r' := by
  have hactions := actions_of_copy hcopy
  obtain ⟨-, hadds⟩ := (actions_adds target subst options root inlined program memory).ok_of_eq
    hactions
  have hkeys := mem_keys_copied hroot (.refl program) hclosed hwithin hcopy
  have hcopies := copy_copies hclosed hroot (.refl program) hclosed hsound htop hwithin
    (fun _ _ => rfl) hcopy
  -- the symbol is a key, and its copy is what it is redirected to
  have hcopied := CopyMap.mem_pairs.1 hpair
  have hkey : id.symbol ∈ copied.map.keys := CopyMap.mem_keys.2 ⟨_, hcopied⟩
  have hmem := (hkeys _).1 hkey
  obtain rfl : copied.map.redirect id = copy := SymbolId.symbol_inj.1 <|
    Option.some.inj ((CopyMap.copyOf?_of_mem_keys hkey).symm.trans hcopied)
  obtain ⟨r, hr⟩ := SymbolTable.allocated_iff.1 (Node.key_allocated hclosed hroot hmem)
  obtain ⟨role, hplays⟩ := Node.exists_plays hmem
  obtain ⟨name, hrecord⟩ := hcopies.records hplays hr
  refine ⟨r, _, hr, hadds.extends_.symbols.get? hr, hrecord, ⟨role, hplays⟩,
    fun role' hplays' => ?_⟩
  obtain ⟨name', hrecord'⟩ := hcopies.records hplays' hr
  rw [Option.some.inj (hrecord.symm.trans hrecord')]
  have hlawful := (copied_lawful hclosed hroot hwithin hcopy).1
  refine CopyReport.completes_record (fun a ha => (hkeys a).2
    (hplays'.symbols_subset_keys hlawful hr ha)) (fun t ht => hcopies.types (.record hplays' hr ht))
      fun base n hbase hn => ?_
  have hbase' : program.symbols.baseName? id.symbol = some base := by
    rw [SymbolTable.baseName?_symbol, hr]
    exact hbase
  have hn' : after.symbols.mintedName? (copied.map.image id.symbol) = some n := by
    rw [CopyMap.image_symbol, SymbolTable.mintedName?_symbol]
    exact (congrArg (Option.bind · _) hrecord').trans hn
  obtain ⟨base', middle, hdrawn, hmiddle, hlookup⟩ :=
    copy_drawn _ hcopy (SymbolTable.allocated_of_baseName? hbase') hkey hn'
  obtain rfl : base' = base := Option.some.inj (hdrawn.symm.trans hbase')
  exact ⟨middle, hmiddle, hlookup⟩

/-- The copies that the sample tree gets are complete: `int` has come in for `T`. -/
theorem copy_completes_sample :
    ∃ copied after,
      (ofParams ⟨0⟩ (some sampleSubst) {}).copy sampleTree "block" (sampleProgram, ()) =
        .ok copied (after, ()) ∧ copied.map.size ≠ 0 ∧
      ∀ (k : Kind) (id copy : SymbolId k), (id.symbol, copy.symbol) ∈ copied.map.pairs →
        ∃ r r', sampleProgram.symbols.get? id = some r ∧ after.symbols.get? id = some r ∧
          after.symbols.get? copy = some r' ∧
          (∃ role, sampleTree.Plays sampleProgram.symbols id role) ∧
          ∀ role, sampleTree.Plays sampleProgram.symbols id role →
            (report ⟨0⟩ (some sampleSubst) {} "block" sampleProgram after copied).Completes role r
              r' := by
  have hok : (match (ofParams ⟨0⟩ (some sampleSubst) {}).copy sampleTree "block"
        (sampleProgram, ()) with
      | .ok copied _ => decide (copied.map.size ≠ 0)
      | .error _ _ => false) = true := by decide +kernel
  cases hcopy : (ofParams ⟨0⟩ (some sampleSubst) {}).copy sampleTree "block"
      (sampleProgram, ()) with
  | error e s' => simp [hcopy] at hok
  | ok copied s' =>
    obtain ⟨after, ⟨⟩⟩ := s'
    refine ⟨copied, after, rfl, by simpa [hcopy] using hok, fun k id copy hpair => ?_⟩
    exact copy_completes (by decide +kernel) (TypePool.Reachable.sound (.typeParam .start ⟨6⟩))
      (by decide +kernel) (by decide +kernel) (by decide +kernel) hcopy id copy hpair

end Copier

end Graft
