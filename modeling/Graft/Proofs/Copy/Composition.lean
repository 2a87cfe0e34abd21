/-
# Copying a copy

What a copy makes of a tree is told by one renaming (`Copier.copy_copies`), and what a copy
makes of a copy by the two renamings after one another (`CopyResult.Copies.andThen`).  So to
copy a tree and then its copy comes to the same as to copy the tree once, under the composed
substitution, up to the choice of the symbols that are added and of generated names
(`Copier.copy_copy`).
-/

import Graft.Proofs.Copy.Exchange
import Graft.Proofs.Copy.Safety
import Graft.Proofs.Type.Composition

namespace Graft

open TypePool (Grown)
open TypeTree (following)
open ParamSubst (outcome)

variable {σ : Type}

/-- Types may be added to a larger program. -/
theorem Program.Extends.withPool {program later : Program} {pool : TypePool}
    (h : later.Extends program) (hg : Grown later.pool pool) :
    ({ later with pool } : Program).Extends program :=
  ⟨h.symbols, h.pool.trans hg.extends_, h.names⟩

namespace CopyResult

/-- What a copy under a substitution made of a tree. -/
def ofCopied (copied : Copied) (after : Program) (subst : Option ParamSubst) : CopyResult where
  root := copied.root
  program := after
  exchange := copied.map.toRenaming (outcome subst after.pool)

/-- A result that was copied again: symbols and types are exchanged twice. -/
def andThen (first second : CopyResult) : CopyResult :=
  { second with exchange := first.exchange.trans second.exchange }

end CopyResult

/-! ### One copy -/

namespace Copier

variable {program start after : Program} {memory memory' : σ} {target : FunctionId}
  {subst : Option ParamSubst} {s : ParamSubst} {options : CopyOptions} {root : Node}
  {inlined : String} {copied : Copied}

/-- What was known of the types is known after a copy. -/
theorem copy_grown
    (hcopy : (ofParams target subst options).copy root inlined (start, memory) =
      .ok copied (after, memory')) : Grown start.pool after.pool :=
  CopyJob.Steps.pool_grown rfl ((actions_steps _ root inlined _).ok_of_eq (actions_of_copy hcopy)).2

/-- In whatever larger program a tree is copied, what comes with it has copies. -/
theorem mem_keys_copied (hroot : root.ClosedIn program) (hext : start.Extends program)
    (hstart : start.Closed) (hwithin : ∀ s ∈ subst, s.Within start.pool)
    (hcopy : (ofParams target subst options).copy root inlined (start, memory) =
      .ok copied (after, memory')) (a : Symbol) :
    a ∈ copied.map.keys ↔ a ∈ root.keys program.symbols := by
  have hactions := actions_of_copy hcopy
  obtain ⟨-, -, haccount⟩ := (actions_account options inlined memory hstart
    (target_allocated hactions) (hroot.wider hext.wider) hwithin).ok_of_eq hactions
  rw [haccount.keys, Node.keys, Node.bringsAll_extends hext.symbols fun n hn => hroot.below hn]

/-- **A copy exchanges symbols and types,** in whatever larger program it is made. -/
theorem copy_copies {tree : TypeId → TypeTree} (hclosed : program.Closed)
    (hroot : root.ClosedIn program) (hext : start.Extends program) (hstart : start.Closed)
    (hsound : start.pool.Sound) (htop : start.pool.Has .any)
    (hwithin : ∀ s ∈ subst, s.Within start.pool)
    (htree : ∀ t, program.pool.Has t → ParamSubst.made subst start.pool t = tree t)
    (hcopy : (ofParams target subst options).copy root inlined (start, memory) =
      .ok copied (after, memory')) :
    (CopyResult.ofCopied copied after subst).Copies program root target options.supertypes
      tree := by
  have hroot' := hroot.wider hext.wider
  have hactions := actions_of_copy hcopy
  have hgrown := copy_grown hcopy
  have hkeys := mem_keys_copied hroot hext hstart hwithin hcopy
  obtain ⟨hclosed', -, -⟩ := (copy_safe options inlined memory hstart htop
    (target_allocated hactions) hroot' hwithin).ok_of_eq hcopy
  obtain ⟨-, hadds⟩ := (actions_adds target subst options root inlined start memory).ok_of_eq
    hactions
  have hrelabels := (actions_relabel target options inlined memory hstart hroot'
    hwithin).ok_of_eq hactions
  have hrecords : ∀ {k : Kind} {id : SymbolId k} {role : CopyRole k} {r : Record k},
      root.Plays program.symbols id role → program.symbols.get? id = some r → ∃ name,
        after.symbols.get? (copied.map.redirect id) = some (role.record
          (copied.terms target options (outcome subst after.pool)) name r) :=
    fun hplays hr => copy_records hstart hroot' hwithin hcopy
      (hplays.extends_ hext.symbols hclosed hroot) (hext.symbols.get? hr)
  refine ⟨hext.trans hadds.extends_, hgrown.sound hsound, fun {k id} hid => ?_,
    fun {k id id'} hid hid' heq => ?_, fun {k id} hid hnot => ?_, ?_, hrecords, fun {t} ht => ?_⟩
  · have hcopied := CopyMap.copyOf?_of_mem_keys ((hkeys _).2 hid)
    exact mt hext.symbols.allocated (hadds.tracks.added _ (.inr ⟨_, hcopied⟩)).1
  · refine SymbolId.symbol_inj.1 (hadds.tracks.injective _ _ _
      (CopyMap.copyOf?_of_mem_keys ((hkeys _).2 hid)) ?_)
    exact (CopyMap.copyOf?_of_mem_keys ((hkeys _).2 hid')).trans
      (congrArg some (congrArg SymbolId.symbol heq.symm))
  · rw [← SymbolId.symbol_inj]
    refine (copied.map.image_symbol id).symm.trans (CopyMap.image_of_not_copied ?_)
    exact CopyMap.copyOf?_eq_none_iff.2 (mt (hkeys _).1 hnot)
  · refine hrelabels.root_eq.trans ?_
    rw [Node.relabel_eq_exchange, Node.exchange_congr hkeys]
    rfl
  · have hhas : after.pool.Has (outcome subst after.pool t) := by
      -- a type of a node settles in the second pass; one of a record is in the record of the copy
      cases ht with
      | @node n _ hn hmoves ht =>
        have hsettles : ParamSubst.Settles subst after.pool t _ := hrelabels.settles n hn t <| by
          rwa [Node.substituted_of_moves ((Node.moves_congr hkeys).2 hmoves)]
        exact hsettles.has (fun s' hs' => (hwithin s' hs').extends_ hgrown.extends_)
          (hgrown.extends_.has ((hroot'.below hn).types t ht)) hclosed'.ordered
      | record hplays hr ht =>
        obtain ⟨name, hcopied⟩ := hrecords hplays hr
        exact hclosed'.has hcopied
          (CopyRole.types_subset _ _ _ (CopyRole.mem_types_rename _ (fun h => h) _ ht))
    have hthere := ht.has hclosed hroot
    refine ⟨hhas, ?_⟩
    exact (ParamSubst.unfold_outcome hsound hwithin hgrown (hext.pool.has hthere) hhas).trans
      (htree t hthere)

end Copier

/-! ### One copy after the other -/

/-- Where supertypes are dropped, less is exchanged. -/
theorem Node.Exchanges.mono {program : Program} {root : Node} {rule rule' : SupertypeRule}
    (h : rule = .top → rule' = .top) {t : TypeId} (ht : root.Exchanges program rule' t) :
    root.Exchanges program rule t := by
  cases ht with
  | node hn hmoves ht => exact .node hn hmoves ht
  | record hplays hr ht => exact .record hplays hr (CopyRole.types_mono h _ _ ht)

namespace CopyResult.Copies

variable {program after : Program} {root copy : Node} {map : CopyMap} {τ : TypeId → TypeId}
  {target target' : FunctionId} {rule rule' : SupertypeRule} {tree tree' : TypeId → TypeTree}

section

variable (h : (⟨copy, after, map.toRenaming τ⟩ : CopyResult).Copies program root target rule tree)
  (hcarries : map.Carries program.symbols after.symbols root.descendants)
  (hcopy : copy = root.transformBelow (Node.relabel map τ)) (hclosed : program.Closed)
  (hroot : root.ClosedIn program)

include hcarries hcopy hroot in
/-- With the copy come the images of what comes with the tree. -/
theorem mem_keys_copy {a : Symbol} :
    a ∈ copy.keys after.symbols ↔ ∃ b ∈ root.keys program.symbols, map.image b = a := by
  rw [Node.keys, hcopy, Node.descendants_relabel]
  exact hcarries.mem_bringsAll fun n hn => hroot.below hn

include h hcarries hcopy hroot in
/-- Nothing that the program had before comes with the copy. -/
theorem not_mem_keys_copy {a : Symbol} (ha : program.symbols.Allocated a) :
    a ∉ copy.keys after.symbols := by
  rw [mem_keys_copy hcarries hcopy hroot]
  rintro ⟨⟨k, i⟩, hb, rfl⟩
  have hid : (⟨i⟩ : SymbolId k).symbol ∈ root.keys program.symbols := hb
  refine h.new hid ?_
  rwa [CopyMap.symbol_toRenaming, ← CopyMap.image_symbol]

include hcarries hcopy hroot in
/-- A node that moved moves again. -/
theorem moves_rename {n : Node} (hmoves : n.Moves (root.keys program.symbols)) :
    (n.rename (map.toRenaming τ)).Moves (copy.keys after.symbols) := by
  intro target htarget
  rw [Node.anchor?_rename] at htarget
  obtain ⟨c, hc, rfl⟩ := Option.map_eq_some_iff.1 htarget
  refine (mem_keys_copy hcarries hcopy hroot).2 ⟨_, hmoves c hc, ?_⟩
  exact map.image_redirectCallable c

include hcarries hcopy hclosed hroot in
/-- A copy plays its role in the copied tree. -/
theorem plays_copy {k : Kind} {id : SymbolId k} {role : CopyRole k}
    (hplays : root.Plays program.symbols id role) :
    copy.Plays after.symbols (map.redirect id) (role.rename (map.toRenaming τ)) :=
  hcopy ▸ hcarries.plays τ hclosed hroot hplays

include h hcarries hcopy hroot in
/-- A node that moves is renamed twice, and one that stays goes on staying. -/
theorem exchange_exchange {n : Node} (hn : n.KnownTo program) (ρ : Renaming) :
    (n.exchange (root.keys program.symbols) (map.toRenaming τ)).exchange
        (copy.keys after.symbols) ρ =
      n.exchange (root.keys program.symbols) ((map.toRenaming τ).trans ρ) := by
  by_cases hmoves : n.Moves (root.keys program.symbols)
  · rw [Node.exchange_of_moves hmoves,
      Node.exchange_of_moves (moves_rename hcarries hcopy hroot hmoves),
      Node.exchange_of_moves hmoves, Node.rename_rename]
  · have hagain : ¬ n.Moves (copy.keys after.symbols) := by
      intro hall
      refine hmoves fun target htarget => absurd (hall target htarget) ?_
      exact h.not_mem_keys_copy hcarries hcopy hroot (hn.mention (Node.anchor_mem_mentions htarget))
    rw [Node.exchange_of_not_moves hmoves, Node.exchange_of_not_moves hagain,
      Node.exchange_of_not_moves hmoves]

include h hcarries hcopy hclosed hroot in
/-- What is exchanged in the tree is exchanged again in its copy. -/
theorem exchanges_copy (hrule : rule = .top → rule' = .top) {t : TypeId}
    (ht : root.Exchanges program rule' t) : copy.Exchanges after rule' (τ t) := by
  cases ht with
  | @node n _ hn hmoves ht =>
    -- the node was renamed and so has moved, and it moves again
    have hthere : n.transform (Node.exchange (root.keys program.symbols) (map.toRenaming τ)) ∈
        copy.descendants := by
      rw [show copy = _ from h.root_eq, Node.descendants_exchange]
      exact List.mem_map_of_mem hn
    refine .node hthere ?_ ?_
    · rw [Node.transform_eq, Node.moves_withChildren, Node.exchange_of_moves hmoves]
      exact moves_rename hcarries hcopy hroot hmoves
    · rw [Node.transform_eq, Node.types_withChildren, Node.exchange_of_moves hmoves,
        Node.types_rename]
      exact List.mem_map_of_mem ht
  | @record k id role r _ hplays hr ht =>
    obtain ⟨name, hcopied⟩ := h.records hplays hr
    exact .record (plays_copy hcarries hcopy hclosed hroot hplays) hcopied
      (CopyRole.mem_types_rename ⟨target, rule, map.toRenaming τ⟩ hrule role ht)

include h hcarries hcopy hclosed hroot in
/-- **A copy that is copied** is the tree with symbols and types exchanged twice. -/
theorem andThen {second : CopyResult} (hsecond : second.Copies after copy target' rule' tree')
    (hrule : rule = .top → rule' = .top) {tree'' : TypeId → TypeTree}
    (htree : ∀ t, root.Exchanges program rule' t → tree' (τ t) = tree'' t) :
    ((⟨copy, after, map.toRenaming τ⟩ : CopyResult).andThen second).Copies program root target'
      rule' tree'' := by
  have hmem : ∀ {k : Kind} {id : SymbolId k}, id.symbol ∈ root.keys program.symbols →
      (map.redirect id).symbol ∈ copy.keys after.symbols :=
    fun {k id} hid => (mem_keys_copy hcarries hcopy hroot).2 ⟨_, hid, map.image_symbol id⟩
  refine ⟨h.extends_.trans hsecond.extends_, hsecond.sound, fun {k id} hid => ?_,
    fun {k id id'} hid hid' heq => ?_, fun {k id} hid hnot => ?_, ?_,
    fun {k id role r} hplays hr => ?_, fun {t} ht => ?_⟩
  · exact mt h.extends_.symbols.allocated (hsecond.new (hmem hid))
  · exact h.injective hid hid' (hsecond.injective (hmem hid) (hmem hid') heq)
  · have hkept : map.redirect id = id := h.kept hid hnot
    refine (congrArg (second.exchange.symbol k) hkept).trans ?_
    exact hsecond.kept (h.extends_.symbols.allocated hid)
      (h.not_mem_keys_copy hcarries hcopy hroot hid)
  · refine hsecond.root_eq.trans ?_
    rw [show copy = _ from h.root_eq, Node.transformBelow_transformBelow
      (fun n => by rw [Node.children_exchange]) Node.exchange_withChildren, ← h.root_eq]
    exact Node.transformBelow_congr fun n hn =>
      h.exchange_exchange hcarries hcopy hroot (hroot.below hn) _
  · obtain ⟨name, hcopied⟩ := h.records hplays hr
    obtain ⟨name', hcopied'⟩ :=
      hsecond.records (plays_copy hcarries hcopy hclosed hroot hplays) hcopied
    refine ⟨name', hcopied'.trans (congrArg some ?_)⟩
    exact CopyRole.record_record ⟨target, rule, map.toRenaming τ⟩
      ⟨target', rule', second.exchange⟩ hrule role r
  · obtain ⟨hhas, hunfold⟩ := hsecond.types (h.exchanges_copy hcarries hcopy hclosed hroot hrule ht)
    exact ⟨hhas, hunfold.trans (htree t ht)⟩

end

end CopyResult.Copies

/-- The copy of a parameter names the declaration that the parameter goes back to. -/
theorem CopyResult.Copies.derivedFrom {result : CopyResult} {program : Program} {root : Node}
    {target : FunctionId} {rule : SupertypeRule} {tree : TypeId → TypeTree}
    (h : result.Copies program root target rule tree) {p : ParamId} {r : ParamRecord}
    (hp : p.symbol ∈ root.keys program.symbols) (hr : program.symbols.get? p = some r) :
    ∃ r' : ParamRecord, result.program.symbols.get? (result.exchange.symbol .param p) = some r' ∧
      r'.derivedFrom = some (r.root p) := by
  obtain ⟨role, hplays⟩ := Node.exists_plays hp
  obtain ⟨name, hcopied⟩ := h.records hplays hr
  cases hplays with
  | declared _ hrole => cases hrole
  | param => exact ⟨_, hcopied, rfl⟩

namespace Copier

/-! ### Success -/

/-- A copy succeeds if the tree can be copied and there is room for the names. -/
theorem exists_copy {program : Program} {subst : Option ParamSubst} {target : FunctionId}
    (options : CopyOptions) {root : Node} (inlined : String) (hclosed : program.Closed)
    (htarget : program.symbols.Allocated target.symbol) (hroot : root.ClosedIn program)
    (hwithin : ∀ s ∈ subst, s.Within program.pool)
    (hlawful : Node.Lawful program.symbols [] root.children) (hroom : program.HasRoom root) :
    ∃ copied after, (ofParams target subst options).copy root inlined (program, ()) =
      .ok copied (after, ()) := by
  have hends := (copy_ends ((actions_account options inlined () hclosed htarget hroot
    hwithin).imp (fun _ _ h => h.1) fun _ _ h => h)).and
      (copy_room options inlined () hclosed hroot hwithin hroom)
  cases hcopy : (ofParams target subst options).copy root inlined (program, ()) with
  | ok copied s => exact ⟨copied, s.1, rfl⟩
  | error e s =>
    obtain ⟨⟨full, he⟩ | ⟨hnot, -⟩, hfits⟩ := hends.err_of_eq hcopy
    · exact absurd he (hfits full)
    · exact absurd hlawful hnot

section

variable {program after : Program} {root : Node} {subst : Option ParamSubst}
  {target : FunctionId} {options : CopyOptions} {inlined : String} {copied : Copied}
  {memory memory' : σ} (hclosed : program.Closed) (hroot : root.ClosedIn program)
  (hwithin : ∀ s ∈ subst, s.Within program.pool)
  (hcopy : (ofParams target subst options).copy root inlined (program, memory) =
    .ok copied (after, memory'))

include hclosed hroot hwithin hcopy

/-- The copy is the tree, relabelled. -/
theorem copied_root : copied.root =
    root.transformBelow (Node.relabel copied.map (outcome subst after.pool)) :=
  ((actions_relabel target options inlined memory hclosed hroot hwithin).ok_of_eq
    (actions_of_copy hcopy)).root_eq

/-- What was copied can be copied again, and so can the copy. -/
theorem copied_lawful : Node.Lawful program.symbols [] root.children ∧
    Node.Lawful after.symbols [] copied.root.children := by
  have hactions := actions_of_copy hcopy
  obtain ⟨hlawful, -⟩ := (actions_account options inlined memory hclosed
    (target_allocated hactions) hroot hwithin).ok_of_eq hactions
  rw [copied_root hclosed hroot hwithin hcopy]
  exact ⟨hlawful, (copy_carries hclosed hroot hwithin hcopy).lawful hclosed hroot hlawful⟩

/-- The copy declares as much as the tree does. -/
theorem hasRoom_copied {later : Program} : later.HasRoom copied.root ↔ later.HasRoom root := by
  rw [Program.HasRoom, copied_root hclosed hroot hwithin hcopy, Node.descendants_relabel,
    CopyMap.declaredBy_transform, List.length_map, Program.HasRoom]

/-- **The copy can be copied,** and what is copied with it are the images. -/
theorem exists_copy_copied {target' : FunctionId} {subst' : Option ParamSubst}
    (options' : CopyOptions) (inlined' : String) (htop : program.pool.Has .any)
    (htarget' : program.symbols.Allocated target'.symbol)
    (hwithin' : ∀ t ∈ subst', t.Within program.pool) (hroom : after.HasRoom root) :
    ∃ copied' after', (ofParams target' subst' options').copy copied.root inlined' (after, ()) =
        .ok copied' (after', ()) ∧
      ∀ a, a ∈ copied'.map.keys ↔ ∃ b ∈ copied.map.keys, copied.map.image b = a := by
  obtain ⟨hclosed₁, hwider₁, hroot₁⟩ := (copy_safe options inlined memory hclosed htop
    (target_allocated (actions_of_copy hcopy)) hroot hwithin).ok_of_eq hcopy
  have hwithin₁ : ∀ t ∈ subst', t.Within after.pool := fun t ht =>
    (hwithin' t ht).extends_ (copy_grown hcopy).extends_
  obtain ⟨copied', after', hcopy'⟩ := exists_copy options' inlined' hclosed₁
    (hwider₁.allocated _ htarget') hroot₁ hwithin₁
    (copied_lawful hclosed hroot hwithin hcopy).2
    ((hasRoom_copied hclosed hroot hwithin hcopy).2 hroom)
  refine ⟨copied', after', hcopy', fun a => ?_⟩
  have himages := CopyResult.Copies.mem_keys_copy (copy_carries hclosed hroot hwithin hcopy)
    (copied_root hclosed hroot hwithin hcopy) hroot (a := a)
  rw [mem_keys_copied hroot₁ (.refl _) hclosed₁ hwithin₁ hcopy', himages]
  simp only [mem_keys_copied hroot (.refl _) hclosed hwithin hcopy]

end

/-! ### Exact substitutions -/

section

variable {program : Program} {root : Node} {s t : ParamSubst} {target : FunctionId}

/-- What two substitutions after one another make of a type. -/
def twiceReplaced (program : Program) (s t : ParamSubst) (x : TypeId) : TypeTree :=
  (program.pool.unfold x).replace (following (s.trees program.pool) (t.trees program.pool))

variable (hclosed : program.Closed) (hsound : program.pool.Sound) (htop : program.pool.Has .any)
  (hroot : root.ClosedIn program) (hs' : s.Within program.pool) (ht' : t.Within program.pool)

include hclosed hsound htop hroot hs' ht'

/-- A copy that was copied exchanges types as the two substitutions do after one another. -/
theorem copies_copied (hs : s.Exact) (ht : t.Exact) {after₁ after₂ : Program} {target₁ : FunctionId}
    {options₁ options₂ : CopyOptions} {inlined₁ inlined₂ : String} {copied₁ copied₂ : Copied}
    (hcopy₁ : (ofParams target₁ (some s) options₁).copy root inlined₁ (program, ()) =
      .ok copied₁ (after₁, ()))
    (hcopy₂ : (ofParams target (some t) options₂).copy copied₁.root inlined₂ (after₁, ()) =
      .ok copied₂ (after₂, ()))
    (hfirst : options₁.supertypes = .top → options₂.supertypes = .top) :
    ((CopyResult.ofCopied copied₁ after₁ (some s)).andThen
      (.ofCopied copied₂ after₂ (some t))).Copies program root target options₂.supertypes
        (twiceReplaced program s t) := by
  have hwithin := hs'.of_mem_some
  have hgrown := copy_grown hcopy₁
  obtain ⟨hclosed₁, -, hroot₁⟩ := (copy_safe options₁ inlined₁ () hclosed htop
    (target_allocated (actions_of_copy hcopy₁)) hroot hwithin).ok_of_eq hcopy₁
  have h₁ := copy_copies hclosed hroot (.refl _) hclosed hsound htop hwithin
    (fun x _ => hs.made _ x) hcopy₁
  have h₂ := copy_copies hclosed₁ hroot₁ (.refl _) hclosed₁ (hgrown.sound hsound)
    (hgrown.extends_.has htop) (ht'.extends_ hgrown.extends_).of_mem_some
    (fun x _ => ht.made _ x) hcopy₂
  refine h₁.andThen (copy_carries hclosed hroot hwithin hcopy₁)
    (copied_root hclosed hroot hwithin hcopy₁) hclosed hroot h₂ hfirst fun x hx => ?_
  exact ParamSubst.replaced_replaced hsound hs' ht' hgrown (hx.has hclosed hroot)
    (h₁.types (hx.mono hfirst)).2

/-- A copy under the composed substitution exchanges types likewise. -/
theorem copies_composed {start after : Program} (hext : start.Extends program)
    (hstart : start.Closed) (hsound' : start.pool.Sound) {u : ParamSubst} {pool : TypePool}
    (hgrown : Grown start.pool pool) (hu : u.Exact) (hu' : u.Within pool)
    (hfollowing : ∀ name id, (∃ x, start.pool.find? (.param name id) = some x) →
      u.trees pool name id = following (s.trees start.pool) (t.trees start.pool) name id)
    {options : CopyOptions} {inlined : String} {copied : Copied}
    (hcopy : (ofParams target (some u) options).copy root inlined ({ start with pool }, ()) =
      .ok copied (after, ())) :
    (CopyResult.ofCopied copied after (some u)).Copies program root target options.supertypes
      (twiceReplaced program s t) := by
  have hgrown' : Grown program.pool start.pool :=
    ⟨hext.pool, fun _ => hsound'.ordered, fun _ => hsound'⟩
  refine copy_copies hclosed hroot (hext.withPool hgrown) (hstart.withPool hgrown)
    (hgrown.sound hsound') ?_ hu'.of_mem_some (fun x hx => (hu.made _ x).trans ?_) hcopy
  · exact hgrown.extends_.has (hext.pool.has htop)
  · exact ParamSubst.replaced_of_following hsound hs' ht' hgrown' hgrown hx hfollowing

end

/-- **To copy a copy is to copy once.**  Start from a closed program whose types were made by
interning (`TypePool.Reachable.sound`), and copy a tree under the substitution `s`; the
replacements of `s`, and of `t`, are exact, and the names do not run out.  If this succeeds,
the copy can be copied under `t`, and the tree can be copied under the composed substitution,
from the program or whatever it has grown to.  The keys of the second map are the images of
the keys of the first, and a parameter that was copied twice still names the declaration that
it goes back to.  If the last copy of each kind goes to the same function and does the same
about supertypes, the two results agree: renaming the symbols of the one takes its tree and
the records of its copies to those of the other, with types that stand for the same tree, and
only generated names may differ.  Supertypes that were dropped at first do not come back, so
then they have to be dropped at the end, too. -/
theorem copy_copy {program start after₁ : Program} {root : Node} {s t : ParamSubst}
    {target₁ target : FunctionId} {options₁ : CopyOptions} (options₂ options₃ : CopyOptions)
    {inlined₁ : String} (inlined₂ inlined₃ : String) {copied₁ : Copied} (hclosed : program.Closed)
    (hsound : program.pool.Sound) (htop : program.pool.Has .any) (hroot : root.ClosedIn program)
    (htarget : program.symbols.Allocated target.symbol)
    (hs : s.Exact) (hs' : s.Within program.pool) (ht : t.Exact) (ht' : t.Within program.pool)
    (hcopy : (ofParams target₁ (some s) options₁).copy root inlined₁ (program, ()) =
      .ok copied₁ (after₁, ()))
    (hroom₁ : after₁.HasRoom root)
    (hfirst : options₁.supertypes = .top → options₂.supertypes = .top)
    (hlast : options₃.supertypes = options₂.supertypes) (hext : start.Extends program)
    (hstart : start.Closed) (hsound' : start.pool.Sound) (hroom : start.HasRoom root) :
    ∃ copied₂ after₂ u pool copied₃ after₃,
      (ofParams target (some t) options₂).copy copied₁.root inlined₂ (after₁, ()) =
        .ok copied₂ (after₂, ()) ∧
      s.andThen t start.pool = .ok u pool ∧
      (ofParams target (some u) options₃).copy root inlined₃ ({ start with pool }, ()) =
        .ok copied₃ (after₃, ()) ∧
      (∀ a, a ∈ copied₂.map.keys ↔ ∃ b ∈ copied₁.map.keys, copied₁.map.image b = a) ∧
      (∀ a, a ∈ copied₃.map.keys ↔ a ∈ copied₁.map.keys) ∧
      (∀ (p : ParamId) (r : ParamRecord), p.symbol ∈ copied₁.map.keys →
        program.symbols.get? p = some r → ∃ r' : ParamRecord,
          after₂.symbols.get? (copied₂.map.redirect (copied₁.map.redirect p)) = some r' ∧
            r'.derivedFrom = some (r.root p)) ∧
      ∃ ρ, ((CopyResult.ofCopied copied₁ after₁ (some s)).andThen
          (.ofCopied copied₂ after₂ (some t))).Agrees (.ofCopied copied₃ after₃ (some u)) program
            copied₁.map.keys ρ := by
  have hwithin := hs'.of_mem_some
  obtain ⟨copied₂, after₂, hcopy₂, himages⟩ := exists_copy_copied hclosed hroot hwithin hcopy
    options₂ inlined₂ htop htarget ht'.of_mem_some hroom₁
  -- the substitutions are composed in the pool that the other copy starts with
  have hends := ParamSubst.andThen_ends hsound' hs (hs'.extends_ hext.pool) ht
    (ht'.extends_ hext.pool)
  cases hu : s.andThen t start.pool with
  | error e pool => exact (hends.err_of_eq hu).elim
  | ok u pool =>
    obtain ⟨hgrown, hexact, hu', hfollowing⟩ := hends.ok_of_eq hu
    have hext₃ := hext.withPool hgrown
    have hclosed₃ := hstart.withPool hgrown
    have hlawful := (copied_lawful hclosed hroot hwithin hcopy).1.extends_ hext.symbols
      fun n hn => hroot.below (Node.preorder_children root ▸ hn)
    obtain ⟨copied₃, after₃, hcopy₃⟩ := exists_copy options₃ inlined₃ hclosed₃
      (hext₃.wider.allocated _ htarget) (hroot.wider hext₃.wider) hu'.of_mem_some hlawful hroom
    have hkeys := mem_keys_copied hroot (.refl _) hclosed hwithin hcopy
    have hkeys₃ := mem_keys_copied hroot hext₃ hclosed₃ hu'.of_mem_some hcopy₃
    have ha := copies_copied hclosed hsound htop hroot hs' ht' hs ht hcopy hcopy₂ hfirst
    have hb := copies_composed hclosed hsound htop hroot hs' ht' hext hstart hsound' hgrown hexact
      hu' hfollowing hcopy₃
    rw [hlast] at hb
    obtain ⟨ρ, hρ⟩ := ha.agrees hb hclosed htop htarget hroot
    exact ⟨copied₂, after₂, u, pool, copied₃, after₃, hcopy₂, rfl, hcopy₃, himages,
      fun a => (hkeys₃ a).trans (hkeys a).symm,
      fun p r hp hr => ha.derivedFrom ((hkeys _).1 hp) hr, ρ, hρ.mono fun a => (hkeys a).1⟩

/-- The sample tree is copied with `[T]` for `T`, and its copy with `int` for `T`.  That comes
to a copy with `[int]` for `T`. -/
theorem copy_copy_sample :
    ∃ copied₁ after₁ copied₂ after₂ u pool copied₃ after₃ ρ,
      (ofParams ⟨0⟩ (some (.insertExact {} ⟨9⟩ ⟨10⟩)) {}).copy sampleTree "block"
        ({ sampleProgram with pool := samplePool }, ()) = .ok copied₁ (after₁, ()) ∧
      (ofParams ⟨0⟩ (some (.insertExact {} ⟨9⟩ (.ofPrimitive .int))) {}).copy copied₁.root "block"
        (after₁, ()) = .ok copied₂ (after₂, ()) ∧
      (ofParams ⟨0⟩ (some u) {}).copy sampleTree "block"
        ({ sampleProgram with pool }, ()) = .ok copied₃ (after₃, ()) ∧
      ((CopyResult.ofCopied copied₁ after₁ (some (.insertExact {} ⟨9⟩ ⟨10⟩))).andThen
        (.ofCopied copied₂ after₂ (some (.insertExact {} ⟨9⟩ (.ofPrimitive .int))))).Agrees
          (.ofCopied copied₃ after₃ (some u)) { sampleProgram with pool := samplePool }
            copied₁.map.keys ρ := by
  let program : Program := { sampleProgram with pool := samplePool }
  let s : ParamSubst := .insertExact {} ⟨9⟩ ⟨10⟩
  let t : ParamSubst := .insertExact {} ⟨9⟩ (.ofPrimitive .int)
  let first := (ofParams ⟨0⟩ (some s) {}).copy sampleTree "block" (program, ())
  have hok : (match first with
      | .ok _ s' => decide (s'.1.HasRoom sampleTree)
      | .error _ _ => false) = true := by decide +kernel
  have hclosed : program.Closed := by decide +kernel
  have hsound : program.pool.Sound := samplePool_reachable.sound
  have htarget : program.symbols.Allocated (SymbolId.symbol (k := .fn) ⟨0⟩) := by decide +kernel
  have hs : s.Exact ∧ s.Within program.pool := by decide +kernel
  have ht : t.Exact ∧ t.Within program.pool := by decide +kernel
  cases hcopy : first with
  | error e s' => simp [hcopy] at hok
  | ok copied₁ s' =>
    obtain ⟨after₁, ⟨⟩⟩ := s'
    have hroom : after₁.HasRoom sampleTree := by simpa [hcopy] using hok
    obtain ⟨copied₂, after₂, u, pool, copied₃, after₃, hcopy₂, -, hcopy₃, -, -, -, ρ, hρ⟩ :=
      copy_copy {} {} "block" "block" hclosed hsound (by decide +kernel) (by decide +kernel)
        htarget hs.1 hs.2 ht.1 ht.2 hcopy hroom id rfl (.refl program) hclosed hsound
        (by decide +kernel)
    exact ⟨copied₁, after₁, copied₂, after₂, u, pool, copied₃, after₃, ρ, hcopy, hcopy₂, hcopy₃, hρ⟩

end Copier

end Graft
