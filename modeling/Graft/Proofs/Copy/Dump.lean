/-
# The text of a copy

A copy puts exchanged nodes in the places of the nodes that it copies, gives out names made of the
label, the name of the target and names that were there, and exchanges types for types made of what
was there and of the replacements.  So if the tree can be written on lines of its own and none of
these texts has a line break, the copy can be written likewise (`Copier.copied_writable`).  Its
text then has the shape of the text of the tree, line by line (`Program.dump_shape`).
-/

import Graft.Proofs.Copy.Completion
import Graft.Proofs.Copy.Journal
import Graft.Proofs.Copy.Written

namespace Graft

open Text
open ParamSubst (outcome)

variable {σ : Type} {k : Kind}

/-! ### Names -/

/-- What a name stands for stays without line breaks.  A name that is unknown stands for the empty
string and may come to stand for something else. -/
def Interner.KeepsUnbroken (names later : Interner) : Prop :=
  ∀ x, Unbroken (names.lookup x) → Unbroken (later.lookup x)

/-- After one more text a name is read as before, or as that text. -/
theorem Interner.lookup_intern {names names' : Interner} {text : String} {n : Name}
    (h : names.intern text = .ok (n, names')) (x : Name) :
    names'.lookup x = names.lookup x ∨ names'.lookup x = text := by
  rcases intern_cases h with ⟨-, rfl⟩ | ⟨-, -, -, rfl⟩
  · exact .inl rfl
  · rw [lookup, lookup, push, Array.getElem?_push]
    split
    · exact .inr rfl
    · exact .inl rfl

namespace NameScheme

/-- The two texts that generated names begin with have no line break in them. -/
def Unbroken (scheme : NameScheme) : Prop :=
  Text.Unbroken scheme.target ∧ Text.Unbroken scheme.inlined

variable {scheme : NameScheme} {supply next last : NameSupply}

/-- A name made of a base without line breaks has none. -/
theorem unbroken_text (hs : scheme.Unbroken) {base : String} (h : Text.Unbroken base) (n : Nat) :
    Text.Unbroken (scheme.text base n) := by
  have hnumber : Text.Unbroken (toString n) := unbroken_int n
  simp only [text, unbroken_append]
  exact ⟨⟨⟨⟨⟨⟨hs.1, by decide⟩, hs.2⟩, by decide⟩, h⟩, by decide⟩, hnumber⟩

/-- A name made of a base without line breaks has none. -/
theorem fresh_unbroken (hs : scheme.Unbroken) {base name : Name}
    (h : scheme.fresh base supply = .ok name next)
    (hbase : Text.Unbroken (supply.names.lookup base)) :
    supply.names.KeepsUnbroken next.names ∧ Text.Unbroken (next.names.lookup name) := by
  have htext := unbroken_text hs hbase supply.next
  obtain ⟨-, -, hmeans⟩ := (scheme.fresh_ends base supply).ok_of_eq h
  refine ⟨fun x hx => ?_, hmeans.lookup ▸ htext⟩
  unfold fresh NameSupply.take at h
  dsimp only at h
  split at h
  · rename_i hintern
    cases h
    rcases Interner.lookup_intern hintern x with hsame | hnew
    · exact hsame ▸ hx
    · exact hnew ▸ htext
  · cases h

/-- So it is for names that are drawn in a row. -/
theorem row_unbroken (hs : scheme.Unbroken) {bases names : List Name}
    (h : bases.mapM scheme.fresh supply = .ok names last)
    (hbases : ∀ base ∈ bases, Text.Unbroken (supply.names.lookup base)) :
    supply.names.KeepsUnbroken last.names ∧
      ∀ name ∈ names, Text.Unbroken (last.names.lookup name) := by
  induction bases generalizing supply names with
  | nil =>
    cases h
    exact ⟨fun _ hx => hx, nofun⟩
  | cons base bases ih =>
    obtain ⟨name, next, rest, hfresh, hrest, rfl⟩ := Ends.exists_of_mapM_cons h
    obtain ⟨hbase, hbases⟩ := List.forall_mem_cons.1 hbases
    obtain ⟨hkeeps, hname⟩ := fresh_unbroken hs hfresh hbase
    obtain ⟨hkeeps', hnames⟩ := ih hrest fun b hb => hkeeps b (hbases b hb)
    exact ⟨fun x hx => hkeeps' x (hkeeps x hx),
      List.forall_mem_cons.2 ⟨hkeeps' name hname, hnames⟩⟩

end NameScheme

/-! ### Types -/

namespace ParamSubst

variable {subst : Option ParamSubst} {pool : TypePool}

/-- The names in the replacements of a substitution, if there is one, have no line break. -/
def UnbrokenIn (subst : Option ParamSubst) (program : Program) : Prop :=
  ∀ s ∈ subst, ∀ e ∈ s.entries, ∀ x ∈ (program.pool.unfold e.2.ty).names,
    Unbroken (program.lookup x)

instance (subst : Option ParamSubst) (program : Program) :
    Decidable (UnbrokenIn subst program) :=
  inferInstanceAs (Decidable (∀ s ∈ subst, ∀ e ∈ s.entries, _))

/-- What a copy makes of a type is written with the names of the type and those of the
replacements. -/
theorem mem_names_made {t : TypeId} {x : Name} (h : x ∈ (made subst pool t).names) :
    x ∈ (pool.unfold t).names ∨ ∃ s ∈ subst, ∃ e ∈ s.entries, x ∈ (pool.unfold e.2.ty).names := by
  cases subst with
  | none => exact .inl h
  | some s =>
    by_cases hfits : s.Fits pool t .invariant
    · rw [made_of_fits hfits, replaced] at h
      refine (TypeTree.mem_names_replace h).imp_right ?_
      rintro ⟨name, id, r, hr, hx⟩
      obtain ⟨p, hp, rfl⟩ := Option.map_eq_some_iff.1 hr
      obtain ⟨u, -, hu⟩ := Option.bind_eq_some_iff.1 hp
      obtain ⟨before, after, he, -⟩ := List.lookup_eq_some_iff.1 hu
      exact ⟨s, rfl, (u, p), he ▸ List.mem_append_right _ (.head _), hx⟩
    · rw [made_of_not_fits hfits] at h
      exact .inl h

end ParamSubst

/-! ### Larger programs -/

namespace Program

variable {program later : Program}

/-- A symbol has the same name in a larger table. -/
theorem name?_extends (hext : later.symbols.Extends program.symbols) {a : Symbol}
    (ha : program.symbols.Allocated a) : later.symbols.name? a = program.symbols.name? a := by
  have hid : program.symbols.Allocated (⟨a.index⟩ : SymbolId a.kind).symbol := ha
  obtain ⟨r, hr⟩ := SymbolTable.allocated_iff.1 hid
  have hlater : later.symbols.name? a = Record.name? a.kind r := hext.retains.name? hr
  have hhere : program.symbols.name? a = Record.name? a.kind r := SymbolTable.name?_of_get? hr
  rw [hlater, hhere]

/-- A symbol has the same declared type in a larger table. -/
theorem declaredType?_extends (hext : later.symbols.Extends program.symbols) {a : Symbol}
    (ha : program.symbols.Allocated a) :
    later.symbols.declaredType? a = program.symbols.declaredType? a := by
  have hid : program.symbols.Allocated (⟨a.index⟩ : SymbolId a.kind).symbol := ha
  rw [SymbolTable.declaredType?, hext.get?_eq hid, SymbolTable.declaredType?]

/-- A symbol that can be named in one line still can, in a larger program. -/
theorem Nameable.extends_ {a : Symbol} (h : program.Nameable a) (hext : later.Extends program)
    (hkeeps : program.supply.names.KeepsUnbroken later.supply.names) : later.Nameable a where
  allocated := hext.symbols.allocated h.allocated
  unbroken x hx := hkeeps x (h.unbroken x (name?_extends hext.symbols h.allocated ▸ hx))

/-- A type that can be displayed in one line still can, in a larger program. -/
theorem Displayable.extends_ {t : TypeId} (h : program.Displayable t)
    (hext : later.Extends program) (ho : program.pool.Ordered)
    (hkeeps : program.supply.names.KeepsUnbroken later.supply.names) : later.Displayable t where
  has := hext.pool.has h.has
  unbroken x hx := hkeeps x (h.unbroken x (hext.pool.unfold ho h.has ▸ hx))

end Program

namespace Node

variable {program later : Program} {n : Node} {table : SymbolTable}

/-- The symbols written at a node do not depend on its children. -/
theorem writtenSymbols_withChildren (n : Node) (cs : List Node) :
    (n.withChildren cs).writtenSymbols table = n.writtenSymbols table := by
  cases n <;> rfl

/-- The types written at a node do not depend on its children. -/
theorem writtenTypes_withChildren (n : Node) (cs : List Node) :
    (n.withChildren cs).writtenTypes table = n.writtenTypes table := by
  cases n <;> rfl

/-- The children of a node have lines of their own. -/
theorem writable_withChildren {cs : List Node} :
    (n.withChildren cs).Writable program ↔ n.Writable program := by
  constructor
  · rintro ⟨h₁, h₂⟩
    rw [writtenSymbols_withChildren] at h₁
    rw [writtenTypes_withChildren] at h₂
    exact ⟨h₁, h₂⟩
  · rintro ⟨h₁, h₂⟩
    refine ⟨?_, ?_⟩
    · rwa [writtenSymbols_withChildren]
    · rwa [writtenTypes_withChildren]

/-- A symbol is written with the same class in a larger table. -/
theorem withClass_extends (hext : later.symbols.Extends program.symbols) {a : Symbol}
    (ha : program.symbols.Allocated a) :
    later.symbols.withClass a = program.symbols.withClass a := by
  obtain ⟨k, i⟩ := a
  cases k with
  | ctor =>
    have hid : program.symbols.Allocated (⟨i⟩ : ConstructorId).symbol := ha
    rw [SymbolTable.withClass, SymbolTable.classOf?, hext.get?_eq hid, SymbolTable.withClass,
      SymbolTable.classOf?]
  | cls | fn | var | param | typeParam => rfl

/-- The parameters a node declares are the same in a larger table. -/
theorem declaredParams_extends (hext : later.symbols.Extends program.symbols)
    (hn : n.KnownTo program) :
    n.declaredParams later.symbols = n.declaredParams program.symbols := by
  rw [declaredParams, declaredParams]
  cases hc : n.callable? with
  | none => rfl
  | some c =>
    refine hext.paramsOf (hn.mention ?_)
    exact List.mem_append_left _ (Option.mem_toList.2 (declared?_of_callable? hc))

/-- What a node declares is the same in a larger table. -/
theorem declarations_extends (hext : later.symbols.Extends program.symbols)
    (hn : n.KnownTo program) :
    n.declarations later.symbols = n.declarations program.symbols := by
  rw [declarations, declaredParams_extends hext hn, declarations]

/-- **What could be written can be written in a larger program,** if names stay without line
breaks. -/
theorem Writable.extends_ (h : n.Writable program) (hn : n.KnownTo program)
    (hext : later.Extends program) (ho : program.pool.Ordered)
    (hkeeps : program.supply.names.KeepsUnbroken later.supply.names) : n.Writable later where
  symbols a ha := by
    refine (h.symbols a ?_).extends_ hext hkeeps
    rw [writtenSymbols, declarations_extends hext.symbols hn] at ha
    refine List.mem_append.2 ((List.mem_append.1 ha).imp_left fun ha => ?_)
    obtain ⟨b, hb, ha⟩ := List.mem_flatMap.1 ha
    rw [withClass_extends hext.symbols (hn.symbols b hb)] at ha
    exact List.mem_flatMap.2 ⟨b, hb, ha⟩
  types t ht := by
    refine (h.types t ?_).extends_ hext ho hkeeps
    rw [writtenTypes, declarations_extends hext.symbols hn] at ht
    refine List.mem_append.2 ((List.mem_append.1 ht).imp_right fun ht => ?_)
    obtain ⟨a, ha, hty⟩ := List.mem_filterMap.1 ht
    rw [Program.declaredType?_extends hext.symbols (h.declaration ha).allocated] at hty
    exact List.mem_filterMap.2 ⟨a, ha, hty⟩

/-- What a node declares comes with it when it is copied. -/
theorem declarations_subset_brings : n.declarations table ⊆ n.brings table := by
  intro a ha
  rcases List.mem_append.1 ha with ha | ha
  · exact mem_brings.2 (.inl (Option.mem_toList.1 ha))
  · obtain ⟨p, hp, rfl⟩ := List.mem_map.1 ha
    exact mem_brings.2 (.inr (.inr (.inl ⟨p, hp, rfl⟩)))

end Node

/-! ### What is written in a copy -/

namespace CopyMap.Carries

open Node

variable {map : CopyMap} {τ : TypeId → TypeId} {program : Program} {after : SymbolTable}
  {ns : List Node} {n : Node}

/-- The copy of a node declares the images. -/
theorem declarations (h : map.Carries program.symbols after ns) (hn : n ∈ ns) :
    (n.relabel map τ).declarations after = (n.declarations program.symbols).map map.image := by
  have hparams : (n.relabel map τ).declaredParams after =
      (n.declaredParams program.symbols).map map.redirect := by
    rw [declaredParams, callable?_relabel, declaredParams]
    cases hc : n.callable? with
    | none => rfl
    | some c =>
      refine h.params c (Node.mem_bringsAll.2 (.inl (List.mem_filterMap.2 ⟨n, hn, ?_⟩)))
      exact declared?_of_callable? hc
  rw [Node.declarations, hparams, declared?_relabel, Node.declarations, List.map_append,
    List.map_map, List.map_map, Option.toList_map]
  simp only [Function.comp_def, map.image_symbol]

/-- The copy of a constructor is named after the copy of its class. -/
theorem withClass (h : map.Carries program.symbols after ns)
    (hext : after.Extends program.symbols)
    (hkeys : ∀ a ∈ map.keys, a ∈ bringsAll program.symbols ns) {id : SymbolId k} {c : Symbol}
    (hid : program.symbols.Allocated id.symbol) (hc : c ∈ after.withClass (map.image id.symbol)) :
    ∃ b ∈ program.symbols.withClass id.symbol, c = b ∨ c = map.image b := by
  rcases List.mem_cons.1 hc with rfl | hc
  · exact ⟨_, .head _, .inr rfl⟩
  obtain ⟨cls, hcls, rfl⟩ := List.mem_map.1 hc
  rw [map.image_symbol, Option.mem_toList] at hcls
  cases k with
  | ctor =>
    obtain ⟨r', hr', rfl⟩ := Option.map_eq_some_iff.1 hcls
    obtain ⟨r, hr⟩ := SymbolTable.allocated_iff.1 hid
    have hwritten : r.cls.symbol ∈ program.symbols.withClass id.symbol := by
      refine .tail _ (List.mem_map_of_mem (Option.mem_toList.2 ?_))
      exact Option.map_eq_some_iff.2 ⟨r, hr, rfl⟩
    refine ⟨_, hwritten, ?_⟩
    by_cases hkey : id.symbol ∈ map.keys
    · -- only constructors that are declared are copied
      have hdeclared : (Callable.ctor id).symbol ∈ declaredBy ns :=
        ((callable_mem_bringsAll (c := .ctor id)).1 (hkeys _ hkey)).resolve_right nofun
      rw [h.constructors id r r' hdeclared hr hr', map.image_symbol]
      exact .inr rfl
    · have hsame : map.redirect id = id := by
        rw [← SymbolId.symbol_inj, ← map.image_symbol]
        exact CopyMap.image_of_not_copied (CopyMap.copyOf?_eq_none_iff.2 hkey)
      have hr'' : after.get? id = some r' := hsame ▸ hr'
      obtain rfl : r = r' := Option.some.inj ((hext.get? hr).symm.trans hr'')
      exact .inl rfl
  | cls | fn | var | param | typeParam => cases hcls

end CopyMap.Carries

namespace CopyState.Journal

variable {s s' : CopyState σ} {job : CopyJob σ} {table : SymbolTable} {types : List TypeId}
  {named : List (Symbol × Name)} {registered : List Symbol}

/-- Names that are given out have no line break if none is in what they are made of. -/
theorem drawn_unbroken (h : s.Journal job table types named registered s')
    (hscheme : job.scheme.Unbroken)
    (hbases : ∀ d ∈ named, ∀ base ∈ table.name? d.1, Unbroken (s.program.lookup base)) :
    s.program.supply.names.KeepsUnbroken s'.program.supply.names ∧
      ∀ d ∈ named, Unbroken (s'.program.lookup d.2) := by
  have hrow : ∀ base ∈ named.map fun d => (table.name? d.1).getD .empty,
      Unbroken (s.program.lookup base) := by
    intro base hb
    obtain ⟨d, hd, rfl⟩ := List.mem_map.1 hb
    obtain ⟨base, -, hbase, -⟩ := h.called d hd
    rw [hbase, Option.getD_some]
    exact hbases d hd base hbase
  have hdrawn : (named.map fun d => (table.name? d.1).getD .empty).mapM job.scheme.fresh
      s.program.supply = .ok (named.map Prod.snd) s'.program.supply := by
    rw [List.mapM_map]
    exact h.drawn
  obtain ⟨hkeeps, hnames⟩ := NameScheme.row_unbroken hscheme hdrawn hrow
  exact ⟨hkeeps, fun d hd => hnames d.2 (List.mem_map_of_mem hd)⟩

/-- A copy has a name that was drawn for it, or that of what it is a copy of. -/
theorem name?_of_copyOf? (h : s.Journal job table types named registered s') {a c : Symbol}
    (hnew : a ∉ s.map.keys) (hc : s'.map.copyOf? a = some c) :
    (∃ d ∈ named, table.name? c = some d.2) ∨ table.name? c = table.name? a := by
  have honly : ∀ c', s'.map.copyOf? a = some c' → c' = c := fun c' hc' =>
    Option.some.inj (hc'.symm.trans hc)
  rcases h.others a (CopyMap.mem_keys.2 ⟨c, hc⟩) with hstart | hdrawn | ⟨c', hc', hname⟩
  · exact absurd hstart hnew
  · obtain ⟨d, hd, rfl⟩ := List.mem_map.1 hdrawn
    obtain ⟨-, c', -, hc', hname⟩ := h.called d hd
    exact .inl ⟨d, hd, honly c' hc' ▸ hname⟩
  · exact .inr (honly c' hc' ▸ hname)

end CopyState.Journal

namespace Copier

open Node Program

variable {program after : Program} {memory memory' : σ} {root : Node} {inlined : String}
  {copied : Copied}

/-- A copy gives out no line breaks in names if none is in what they are made of. -/
theorem copy_unbroken {copier : Copier σ}
    (hcopy : copier.copy root inlined (program, memory) = .ok copied (after, memory'))
    (hscheme : (copier.job program inlined).scheme.Unbroken)
    (hroot : ∀ a ∈ root.descendants.filterMap numbered?, program.Nameable a) :
    program.supply.names.KeepsUnbroken after.supply.names ∧
      ∀ a, program.Nameable a → ∀ x ∈ after.symbols.name? (copied.map.image a),
        Unbroken (after.lookup x) := by
  obtain ⟨named, s₁, hnamed, hjournal, hasks⟩ := copy_journal hcopy
  have hnameOf : ∀ a, program.Nameable a → after.symbols.name? a = program.symbols.name? a :=
    fun a ha => name?_extends (copy_extends hcopy) ha.allocated
  obtain ⟨hkeeps, hnames⟩ := hjournal.drawn_unbroken hscheme fun d hd base hbase => by
    have hd : program.Nameable d.1 := hroot _ (hnamed ▸ List.mem_map_of_mem hd)
    exact hd.unbroken base (hnameOf d.1 hd ▸ hbase)
  rw [← hasks.supply] at hkeeps
  refine ⟨hkeeps, fun a ha x hx => ?_⟩
  have hkept : after.symbols.name? (copied.map.image a) = after.symbols.name? a →
      Unbroken (after.lookup x) := fun heq =>
    hkeeps x (ha.unbroken x (hnameOf a ha ▸ heq ▸ hx))
  cases hc : copied.map.copyOf? a with
  | none => exact hkept (by rw [CopyMap.image_of_not_copied hc])
  | some c =>
    rw [CopyMap.image_of_copyOf? hc] at hx hkept
    have hmap : copied.map = s₁.map := hasks.map
    have hnew : a ∉ ({} : CopyMap).keys := CopyMap.not_mem_keys_empty a
    rcases hjournal.name?_of_copyOf? hnew (hmap ▸ hc) with ⟨d, hd, hname⟩ | hname
    · obtain rfl : d.2 = x := Option.some.inj (hname.symm.trans hx)
      rw [Program.lookup, hasks.supply]
      exact hnames d hd
    · exact hkept hname

/-- A symbol written as a number is one of those mentioned. -/
theorem numbered?_mem_mentions {n : Node} {a : Symbol} (h : n.numbered? = some a) :
    a ∈ n.mentions := by
  cases n <;> cases h <;> exact .head _

section

variable {target : FunctionId} {subst : Option ParamSubst} {options : CopyOptions}

/-- Names stay without line breaks, and what becomes of a symbol can be named. -/
theorem copy_nameable
    (hcopy : (ofParams target subst options).copy root inlined (program, memory) =
      .ok copied (after, memory'))
    (hscheme : ((ofParams target subst options : Copier σ).job program inlined).scheme.Unbroken)
    (hbelow : ∀ n ∈ root.descendants, n.Writable program) :
    program.supply.names.KeepsUnbroken after.supply.names ∧
      ∀ a, program.Nameable a → after.Nameable (copied.map.image a) := by
  obtain ⟨-, hadds⟩ := (actions_adds target subst options root inlined program memory).ok_of_eq
    (actions_of_copy hcopy)
  obtain ⟨hkeeps, hnames⟩ := copy_unbroken hcopy hscheme fun a ha => by
    obtain ⟨n, hn, hnumbered⟩ := List.mem_filterMap.1 ha
    exact (hbelow n hn).mention (numbered?_mem_mentions hnumbered)
  refine ⟨hkeeps, fun a ha => ⟨?_, hnames a ha⟩⟩
  cases hc : copied.map.copyOf? a with
  | none =>
    rw [CopyMap.image_of_not_copied hc]
    exact (copy_extends hcopy).allocated ha.allocated
  | some c =>
    rw [CopyMap.image_of_copyOf? hc]
    exact (hadds.tracks.added c (.inr ⟨a, hc⟩)).2

/-- What becomes of a type can be written. -/
theorem displayable_outcome {t : TypeId}
    (hcopies : (CopyResult.ofCopied copied after subst).Copies program root target
      options.supertypes (ParamSubst.made subst program.pool))
    (hkeeps : program.supply.names.KeepsUnbroken after.supply.names)
    (hsubst : ParamSubst.UnbrokenIn subst program)
    (ht : root.Exchanges program options.supertypes t) (h : program.Displayable t) :
    after.Displayable (outcome subst after.pool t) := by
  obtain ⟨hhas, hunfold⟩ := hcopies.types ht
  refine ⟨hhas, fun x hx => hkeeps x ?_⟩
  have hmade : x ∈ (ParamSubst.made subst program.pool t).names := hunfold ▸ hx
  rcases ParamSubst.mem_names_made hmade with hx | ⟨s, hs, e, he, hx⟩
  · exact h.unbroken x hx
  · exact hsubst s hs e he x hx

variable (hclosed : program.Closed) (hroot : root.ClosedIn program)
  (hwithin : ∀ s ∈ subst, s.Within program.pool)
  (hcopy : (ofParams target subst options).copy root inlined (program, memory) =
    .ok copied (after, memory'))

include hclosed hroot hwithin hcopy

/-- What is written in the copy of a node are symbols that are written in the node, or their
copies. -/
theorem mem_writtenSymbols_relabel {n : Node} {τ : TypeId → TypeId} (hn : n ∈ root.descendants)
    {c : Symbol} (hc : c ∈ (n.relabel copied.map τ).writtenSymbols after.symbols) :
    ∃ a ∈ n.writtenSymbols program.symbols, c = a ∨ c = copied.map.image a := by
  have hext := copy_extends hcopy
  have hknown := hroot.below hn
  have hcarries := copy_carries hclosed hroot hwithin hcopy
  have hkeys := mem_keys_copied hroot (.refl program) hclosed hwithin hcopy
  have hclass : ∀ {a b : Symbol}, a ∈ n.symbols → b ∈ program.symbols.withClass a →
      b ∈ n.writtenSymbols program.symbols := fun ha hb =>
    List.mem_append_left _ (List.mem_flatMap.2 ⟨_, ha, hb⟩)
  rcases List.mem_append.1 hc with hc | hc
  · obtain ⟨a', ha', hc⟩ := List.mem_flatMap.1 hc
    rcases mem_symbols_relabel ha' with ⟨⟨k, i⟩, ha, rfl⟩ | ha
    · have hid : program.symbols.Allocated (⟨i⟩ : SymbolId k).symbol := hknown.mention ha
      obtain ⟨b, hb, heq⟩ := hcarries.withClass hext (fun a ha => (hkeys a).1 ha) hid hc
      exact ⟨b, hclass (List.mem_append_left _ ha) hb, heq⟩
    · rw [withClass_extends hext (hknown.symbols a' ha)] at hc
      exact ⟨c, hclass ha hc, .inl rfl⟩
  · rw [hcarries.declarations hn] at hc
    obtain ⟨a, ha, rfl⟩ := List.mem_map.1 hc
    exact ⟨a, List.mem_append_right _ ha, .inr rfl⟩

/-- The copy of what a node declares is declared with what becomes of the type. -/
theorem declaredType?_image {a : Symbol} (ha : a ∈ root.keys program.symbols) {t : TypeId}
    (ht : after.symbols.declaredType? (copied.map.image a) = some t) :
    ∃ u, program.symbols.declaredType? a = some u ∧ t = outcome subst after.pool u ∧
      root.Exchanges program options.supertypes u := by
  obtain ⟨k, i⟩ := a
  have hkey : (⟨i⟩ : SymbolId k).symbol ∈ root.keys program.symbols := ha
  obtain ⟨role, hplays⟩ := exists_plays hkey
  obtain ⟨r, hr⟩ := SymbolTable.allocated_iff.1 (key_allocated hclosed hroot hkey)
  obtain ⟨name, hcopied⟩ := copy_records hclosed hroot hwithin hcopy hplays hr
  have htype : Record.declaredType? k (role.record
      (copied.terms target options (outcome subst after.pool)) name r) = some t := by
    rw [← SymbolTable.declaredType?_of_get? hcopied, ← copied.map.image_symbol]
    exact ht
  have hexchanges : ∀ u ∈ role.types options.supertypes r,
      root.Exchanges program options.supertypes u := fun u hu => .record hplays hr hu
  have hhere := SymbolTable.declaredType?_of_get? hr
  cases role with
  | cls | ctor => cases htype
  | fn | invoke | var | param =>
    obtain rfl := Option.some.inj htype
    exact ⟨_, hhere, rfl, hexchanges _ (.head _)⟩

/-- The types that are written in the copy of a node are types that are written in the node, or
what becomes of them when they are exchanged. -/
theorem mem_writtenTypes_relabel {n : Node} (hn : n ∈ root.descendants) {t : TypeId}
    (ht : t ∈ (n.relabel copied.map (outcome subst after.pool)).writtenTypes after.symbols) :
    ∃ u ∈ n.writtenTypes program.symbols,
      t = u ∨ t = outcome subst after.pool u ∧ root.Exchanges program options.supertypes u := by
  have hkeys := mem_keys_copied hroot (.refl program) hclosed hwithin hcopy
  rcases List.mem_append.1 ht with ht | ht
  · by_cases hmoves : n.Moves copied.map.keys
    · rw [relabel_of_moves hmoves, types_rename] at ht
      obtain ⟨u, hu, rfl⟩ := List.mem_map.1 ht
      exact ⟨u, List.mem_append_left _ hu,
        .inr ⟨rfl, .node hn ((moves_congr hkeys).1 hmoves) hu⟩⟩
    · rw [relabel_of_not_moves hmoves] at ht
      exact ⟨t, List.mem_append_left _ ht, .inl rfl⟩
  · rw [(copy_carries hclosed hroot hwithin hcopy).declarations hn] at ht
    obtain ⟨c, hc, htype⟩ := List.mem_filterMap.1 ht
    obtain ⟨a, ha, rfl⟩ := List.mem_map.1 hc
    obtain ⟨u, hu, heq⟩ := declaredType?_image hclosed hroot hwithin hcopy
      (List.mem_flatMap.2 ⟨n, hn, declarations_subset_brings ha⟩) htype
    exact ⟨u, List.mem_append_right _ (List.mem_filterMap.2 ⟨a, ha, hu⟩), .inr heq⟩

variable
  (hscheme : ((ofParams target subst options : Copier σ).job program inlined).scheme.Unbroken)
  (hbelow : ∀ n ∈ root.descendants, n.Writable program) (hsound : program.pool.Sound)
  (htop : program.pool.Has .any) (hsubst : ParamSubst.UnbrokenIn subst program)

include hscheme hbelow hsound htop hsubst

/-- The copy of a node can be written, whatever children it is given. -/
theorem writable_relabel {n : Node} (hn : n ∈ root.descendants) :
    (n.relabel copied.map (outcome subst after.pool)).Writable after := by
  have hcopies := copy_copies hclosed hroot (.refl program) hclosed hsound htop hwithin
    (fun _ _ => rfl) hcopy
  obtain ⟨hkeeps, himages⟩ := copy_nameable hcopy hscheme hbelow
  have hwritable := hbelow n hn
  refine ⟨fun c hc => ?_, fun t ht => ?_⟩
  · obtain ⟨a, ha, rfl | rfl⟩ := mem_writtenSymbols_relabel hclosed hroot hwithin hcopy hn hc
    · exact (hwritable.symbols c ha).extends_ hcopies.extends_ hkeeps
    · exact himages a (hwritable.symbols a ha)
  · obtain ⟨u, hu, rfl | ⟨rfl, hexchanges⟩⟩ :=
      mem_writtenTypes_relabel hclosed hroot hwithin hcopy hn ht
    · exact (hwritable.types t hu).extends_ hcopies.extends_ hclosed.ordered hkeeps
    · exact displayable_outcome hcopies hkeeps hsubst hexchanges (hwritable.types u hu)

/-- **The copy can be written** if the tree can be and no line break comes in with the names that
are generated or with the types that are put in. -/
theorem copied_writable (hself : root.Writable program) :
    after.pool.Ordered ∧ ∀ n ∈ copied.root :: copied.root.descendants, n.Writable after := by
  have hcopies := copy_copies hclosed hroot (.refl program) hclosed hsound htop hwithin
    (fun _ _ => rfl) hcopy
  obtain ⟨hkeeps, -⟩ := copy_nameable hcopy hscheme hbelow
  refine ⟨hcopies.sound.ordered, fun n hn => ?_⟩
  rw [copied_root hclosed hroot hwithin hcopy] at hn
  rcases List.mem_cons.1 hn with rfl | hn
  · rw [transformBelow, writable_withChildren]
    exact hself.extends_ (hroot root (.head _)) hcopies.extends_ hclosed.ordered hkeeps
  · rw [descendants_relabel] at hn
    obtain ⟨m, hm, rfl⟩ := List.mem_map.1 hn
    rw [transform_eq, writable_withChildren]
    exact writable_relabel hclosed hroot hwithin hcopy hscheme hbelow hsound htop hsubst hm

end

end Copier

/-! ### The shape of a text -/

/-- **The text of a tree shows its shape,** whatever characters and strings it holds.  Let all
symbols and types that are written in it be there, with names that have no line break.  Then it has
a text: a line for every node, in preorder, ended by a line break and indented by exactly two spaces
for every level, and how many children each node has is read off this.  Let a copy of the tree
succeed in a closed program whose types were made by interning (`TypePool.Reachable.sound`), where
the label, the name of the target and the names in the replacements have no line break either.
Then the copy has a text of this kind, too, with as many lines, which are indented as those of the
tree are. -/
theorem Program.dump_shape {program : Program} {root : Node} (hordered : program.pool.Ordered)
    (hwritable : ∀ n ∈ root :: root.descendants, n.Writable program) :
    ∃ text, program.Shows root text ∧
      ∀ {σ : Type} {memory memory' : σ} {target : FunctionId} {subst : Option ParamSubst}
        {options : CopyOptions} {inlined : String} {copied : Copied} {after : Program},
        program.Closed → program.pool.Sound → program.pool.Has .any → root.ClosedIn program →
        (∀ s ∈ subst, s.Within program.pool) → Unbroken inlined →
        (∀ r, program.symbols.get? target = some r → Unbroken (program.lookup r.name)) →
        ParamSubst.UnbrokenIn subst program →
        (Copier.ofParams target subst options).copy root inlined (program, memory) =
          .ok copied (after, memory') →
        ∃ text', after.Shows copied.root text' ∧
          (lines text').map indent = (lines text).map indent := by
  obtain ⟨text, htext⟩ := Program.exists_shows hordered hwritable
  refine ⟨text, htext, ?_⟩
  intro σ memory memory' target subst options inlined copied after hclosed hsound htop hroot hwithin
    hinlined htarget hsubst hcopy
  have hscheme : ((Copier.ofParams target subst options : Copier σ).job program
      inlined).scheme.Unbroken := by
    obtain ⟨r, hr⟩ := SymbolTable.allocated_iff.1
      (Copier.target_allocated (Copier.actions_of_copy hcopy))
    refine ⟨?_, hinlined⟩
    rw [Copier.job]
    show Unbroken (program.lookup ((program.symbols.get? target).elim .empty (·.name)))
    rw [show program.symbols.get? target = some r from hr]
    exact htarget r hr
  obtain ⟨hself, hbelow⟩ := List.forall_mem_cons.1 hwritable
  obtain ⟨hordered', hwritable'⟩ := Copier.copied_writable hclosed hroot hwithin hcopy hscheme
    hbelow hsound htop hsubst hself
  obtain ⟨text', htext'⟩ := Program.exists_shows hordered' hwritable'
  refine ⟨text', htext', ?_⟩
  rw [htext'.map_indent_lines, htext.map_indent_lines,
    Copier.copied_root hclosed hroot hwithin hcopy,
    Node.depths_transformBelow fun n => by rw [Node.children_relabel]]

/-- The sample tree and its copy have texts that are indented alike. -/
theorem Program.dump_shape_sample :
    ∃ text copied after text', sampleProgram.Shows sampleTree text ∧
      (Copier.ofParams ⟨0⟩ (some sampleSubst) {}).copy sampleTree "block" (sampleProgram, ()) =
        .ok copied (after, ()) ∧
      after.Shows copied.root text' ∧ (lines text').map indent = (lines text).map indent := by
  have hordered : sampleProgram.pool.Ordered := by decide +kernel
  have hwritable : ∀ n ∈ sampleTree :: sampleTree.descendants, n.Writable sampleProgram := by
    decide +kernel
  have hok : Succeeds ((Copier.ofParams ⟨0⟩ (some sampleSubst) {}).copy sampleTree "block")
      (sampleProgram, ()) = true := by decide +kernel
  obtain ⟨copied, ⟨after, ⟨⟩⟩, hcopy⟩ := succeeds_iff.1 hok
  have htarget : ∀ r, sampleProgram.symbols.get? (⟨0⟩ : FunctionId) = some r →
      Unbroken (sampleProgram.lookup r.name) := by
    rintro r hr
    obtain rfl : _ = r := Option.some.inj hr
    decide +kernel
  obtain ⟨text, htext, hcopies⟩ := Program.dump_shape hordered hwritable
  obtain ⟨text', htext', hindent⟩ := hcopies (by decide +kernel)
    (TypePool.Reachable.sound (.typeParam .start ⟨6⟩)) (by decide +kernel) (by decide +kernel)
    (by decide +kernel) (by decide +kernel) htarget (by decide +kernel) hcopy
  exact ⟨text, copied, after, text', htext, hcopy, htext', hindent⟩

end Graft
