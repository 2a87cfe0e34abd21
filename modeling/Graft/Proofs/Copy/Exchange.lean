/-
# What a copy makes of a tree

All that a copy makes of a tree can be told by a renaming of the symbols and types of the
program that the tree is closed in (`CopyResult.Copies`): the nodes below the root are
renamed in their places, unless they point outside the tree, and the records of the copies
are what their roles give.  It does not matter in which larger program the copy was made,
nor how many copies it took.  So two results for the same tree on the same terms agree up to
a renaming of the symbols that were added and of types with the same tree
(`CopyResult.Copies.agrees`).
-/

import Graft.Proofs.Copy.Carry
import Graft.Proofs.Type.Unfold

namespace Graft

open ParamSubst (outcome)

/-! ### Translating handles -/

/-- The type of the pool `dest` that stands for the same tree as a type of `source`, if there
is one. -/
noncomputable def TypePool.translate (source dest : TypePool) (t : TypeId) : TypeId :=
  open Classical in
  if h : ∃ u, dest.Has u ∧ dest.unfold u = source.unfold t then h.choose else t

/-- A type of a sound pool that unfolds to the tree of another pool's type is what that one is taken
to. -/
theorem TypePool.Sound.translate_eq {source dest : TypePool} (h : dest.Sound) {t u : TypeId}
    (hu : dest.Has u) (htree : dest.unfold u = source.unfold t) : source.translate dest t = u := by
  have hex : ∃ u, dest.Has u ∧ dest.unfold u = source.unfold t := ⟨u, hu, htree⟩
  rw [translate, dif_pos hex]
  exact h.unfold_injective hex.choose_spec.1 hu (hex.choose_spec.2.trans htree.symm)

/-- What the first renaming gives for a key becomes what the second gives for it. -/
noncomputable def Renaming.between (ρ ρ' : Renaming) (keys : List Symbol) (k : Kind)
    (id : SymbolId k) : SymbolId k :=
  open Classical in
  if h : ∃ key : SymbolId k, key.symbol ∈ keys ∧ ρ.symbol k key = id then ρ'.symbol k h.choose
  else id

namespace Node

/-- The symbols that are copied with what is below a root. -/
def keys (root : Node) (table : SymbolTable) : List Symbol := bringsAll table root.descendants

/-- The types that are exchanged when what is below a root is copied. -/
inductive Exchanges (program : Program) (root : Node) (rule : SupertypeRule) : TypeId → Prop
  | node {n : Node} {t : TypeId} (hn : n ∈ root.descendants)
      (hmoves : n.Moves (root.keys program.symbols)) (ht : t ∈ n.types) :
      Exchanges program root rule t
  | record {k : Kind} {id : SymbolId k} {role : CopyRole k} {r : Record k} {t : TypeId}
      (hplays : root.Plays program.symbols id role) (hr : program.symbols.get? id = some r)
      (ht : t ∈ role.types rule r) : Exchanges program root rule t

variable {program : Program} {root : Node}

/-- A type that is exchanged is in the pool of a closed program. -/
theorem Exchanges.has {rule : SupertypeRule} {t : TypeId} (h : root.Exchanges program rule t)
    (hclosed : program.Closed) (hroot : root.ClosedIn program) : program.pool.Has t := by
  cases h with
  | node hn _ ht => exact (hroot.below hn).types t ht
  | record _ hr ht => exact hclosed.has hr (CopyRole.types_subset _ _ _ ht)

/-- The symbols that get copies are in the table of a closed program. -/
theorem key_allocated (hclosed : program.Closed) (hroot : root.ClosedIn program) {a : Symbol}
    (ha : a ∈ root.keys program.symbols) : program.symbols.Allocated a :=
  bringsAll_allocated hclosed (fun _ hn => hroot.below hn) ha

/-- What plays a role is copied. -/
theorem Plays.key {k : Kind} {id : SymbolId k} {role : CopyRole k}
    (h : root.Plays program.symbols id role) : id.symbol ∈ root.keys program.symbols := by
  cases h with
  | declared hid _ => exact mem_bringsAll.2 (.inl hid)
  | invoke hid _ => exact mem_bringsAll.2 (.inr (.inl ⟨_, hid, rfl⟩))
  | param hcallable hid =>
    exact withParams_subset_bringsAll hcallable
      (SymbolTable.mem_withParams_iff.2 (.inl ⟨_, hid, rfl⟩))

/-- **Everything that is copied plays a role.** -/
theorem exists_plays {k : Kind} {id : SymbolId k} (h : id.symbol ∈ root.keys program.symbols) :
    ∃ role, root.Plays program.symbols id role := by
  by_cases hd : id.symbol ∈ declaredBy root.descendants
  · obtain ⟨n, -, hn⟩ := List.mem_filterMap.1 hd
    obtain ⟨role, hrole⟩ : ∃ role : CopyRole id.symbol.kind, CopyRole.declared? _ = some role := by
      rw [← Option.isSome_iff_exists]
      generalize id.symbol = a at hn
      cases n <;> cases hn <;> rfl
    exact ⟨role, .declared hd hrole⟩
  · rcases (mem_bringsAll.1 h).resolve_left hd with ⟨f, hf, hid⟩ | ⟨p, hp, hid⟩
    · obtain rfl : k = .fn := congrArg Symbol.kind hid
      obtain rfl := SymbolId.symbol_inj.1 hid
      exact ⟨.invoke, .invoke hf hd⟩
    · obtain rfl : k = .param := congrArg Symbol.kind hid
      obtain rfl := SymbolId.symbol_inj.1 hid
      obtain ⟨c, hc, hp⟩ := exists_callable_of_param hp
      exact ⟨.param c id, .param hc hp⟩

/-- The symbols that are renamed in the record of a copy are symbols of the program. -/
theorem Plays.symbols_allocated {k : Kind} {id : SymbolId k} {role : CopyRole k} {r : Record k}
    (h : root.Plays program.symbols id role) (hclosed : program.Closed)
    (hroot : root.ClosedIn program) (hr : program.symbols.get? id = some r) :
    ∀ a ∈ role.symbols r, program.symbols.Allocated a := by
  intro a ha
  have hknown : a ∈ Record.symbols k r → program.symbols.Allocated a := hclosed.allocated hr
  cases h with
  | declared hid hrole =>
    cases k with
    | param | typeParam => cases hrole
    | cls => cases hrole; exact hknown (List.mem_append_right _ ha)
    | fn => cases hrole; exact hknown (List.mem_append_right _ ha)
    | ctor =>
      cases hrole
      rcases List.mem_cons.1 ha with rfl | ha
      · exact hknown (.head _)
      · exact hknown (.tail _ (List.mem_append_right _ ha))
    | var => cases hrole; cases ha
  | invoke => exact hknown (List.mem_append_right _ ha)
  | param hcallable hid =>
    obtain rfl := List.mem_singleton.1 ha
    exact key_allocated hclosed hroot hcallable

/-- The parameter that is copied as one is a symbol of the program. -/
theorem Plays.self_allocated {k : Kind} {id : SymbolId k} {role : CopyRole k}
    (h : root.Plays program.symbols id role) (hclosed : program.Closed)
    (hroot : root.ClosedIn program) :
    ∀ self ∈ role.self?, program.symbols.Allocated self.symbol := by
  intro self hself
  cases h with
  | declared _ hrole => cases k <;> cases hrole <;> cases hself
  | invoke => cases hself
  | param hcallable hid =>
    obtain rfl := Option.some.inj hself
    exact key_allocated hclosed hroot (Plays.param hcallable hid).key

end Node

/-! ### Results of copying -/

/-- A copied tree, the program that it lives in, and how symbols and types of the program
that was started from were exchanged. -/
structure CopyResult where
  root : Node
  program : Program
  exchange : Renaming

namespace CopyResult

/-- The result is the tree `root` of the program, copied into the function `target` under the
rule for supertypes.  The types that were exchanged stand for what `tree` gives. -/
structure Copies (result : CopyResult) (program : Program) (root : Node) (target : FunctionId)
    (rule : SupertypeRule) (tree : TypeId → TypeTree) : Prop where
  extends_ : result.program.Extends program
  sound : result.program.pool.Sound
  new : ∀ {k : Kind} {id : SymbolId k}, id.symbol ∈ root.keys program.symbols →
    ¬ program.symbols.Allocated (result.exchange.symbol k id).symbol
  injective : ∀ {k : Kind} {id id' : SymbolId k}, id.symbol ∈ root.keys program.symbols →
    id'.symbol ∈ root.keys program.symbols →
      result.exchange.symbol k id = result.exchange.symbol k id' → id = id'
  /-- A symbol of the program that is not copied stays as it is. -/
  kept : ∀ {k : Kind} {id : SymbolId k}, program.symbols.Allocated id.symbol →
    id.symbol ∉ root.keys program.symbols → result.exchange.symbol k id = id
  root_eq : result.root =
    root.transformBelow (Node.exchange (root.keys program.symbols) result.exchange)
  records : ∀ {k : Kind} {id : SymbolId k} {role : CopyRole k} {r : Record k},
    root.Plays program.symbols id role → program.symbols.get? id = some r →
      ∃ name, result.program.symbols.get? (result.exchange.symbol k id) =
        some (role.record ⟨target, rule, result.exchange⟩ name r)
  types : ∀ {t : TypeId}, root.Exchanges program rule t →
    result.program.pool.Has (result.exchange.type t) ∧
      result.program.pool.unfold (result.exchange.type t) = tree t

/-- The results `a` and `b` of copying the symbols `keys` of a program agree up to the
renaming `ρ` of the symbols that were added and of types.  It leaves alone what the program
has; it takes the copies in `a` to the copies in `b` and the tree to the tree; and the
records of corresponding copies are the same in every field, but for generated names.  The
types in the trees and in the records stand for what they are taken to. -/
structure Agrees (a b : CopyResult) (program : Program) (keys : List Symbol) (ρ : Renaming) :
    Prop where
  fixes : ρ.Fixes program
  copies : ∀ (k : Kind) (id : SymbolId k), id.symbol ∈ keys →
    ρ.symbol k (a.exchange.symbol k id) = b.exchange.symbol k id
  injective : ∀ (k : Kind) (id id' : SymbolId k), id.symbol ∈ keys → id'.symbol ∈ keys →
    b.exchange.symbol k id = b.exchange.symbol k id' → id = id'
  root_eq : b.root = a.root.transform (Node.rename ρ)
  root_types : ∀ n ∈ a.root :: a.root.descendants, ∀ t ∈ n.types,
    b.program.pool.unfold (ρ.type t) = a.program.pool.unfold t
  records : ∀ (k : Kind) (id : SymbolId k), id.symbol ∈ keys →
    ∃ r r', a.program.symbols.get? (a.exchange.symbol k id) = some r ∧
      b.program.symbols.get? (b.exchange.symbol k id) = some r' ∧
      Record.unnamed k r' = Record.unnamed k (Record.rename ρ k r) ∧
      ∀ t ∈ Record.types k r, b.program.pool.unfold (ρ.type t) = a.program.pool.unfold t

/-- Results that agree on some symbols agree on fewer. -/
theorem Agrees.mono {a b : CopyResult} {program : Program} {keys keys' : List Symbol}
    {ρ : Renaming} (h : a.Agrees b program keys ρ) (hkeys : keys' ⊆ keys) :
    a.Agrees b program keys' ρ where
  fixes := h.fixes
  copies k id hid := h.copies k id (hkeys hid)
  injective k id id' hid hid' := h.injective k id id' (hkeys hid) (hkeys hid')
  root_eq := h.root_eq
  root_types := h.root_types
  records k id hid := h.records k id (hkeys hid)

namespace Copies

variable {a b : CopyResult} {program : Program} {root : Node} {target : FunctionId}
  {rule : SupertypeRule} {tree : TypeId → TypeTree}

/-- What takes the copies in one result to those in the other, and types to types with the
same tree. -/
noncomputable def translation (a b : CopyResult) (keys : List Symbol) : Renaming where
  symbol := a.exchange.between b.exchange keys
  type := a.program.pool.translate b.program.pool

/-- The translation takes the one copy of a symbol to the other copy of it. -/
theorem translation_copy (ha : a.Copies program root target rule tree) {k : Kind}
    {id : SymbolId k} (hid : id.symbol ∈ root.keys program.symbols) :
    (translation a b (root.keys program.symbols)).symbol k (a.exchange.symbol k id) =
      b.exchange.symbol k id := by
  have hex : ∃ key : SymbolId k, key.symbol ∈ root.keys program.symbols ∧
      a.exchange.symbol k key = a.exchange.symbol k id := ⟨id, hid, rfl⟩
  have hchosen : hex.choose = id := ha.injective hex.choose_spec.1 hid hex.choose_spec.2
  exact (dif_pos hex).trans (congrArg _ hchosen)

/-- The translation leaves alone what the program has. -/
theorem translation_fixes (ha : a.Copies program root target rule tree)
    (hb : b.Copies program root target rule tree) (hclosed : program.Closed) :
    (translation a b (root.keys program.symbols)).Fixes program where
  symbol k id hid := by
    refine dif_neg ?_
    rintro ⟨key, hkey, rfl⟩
    exact ha.new hkey hid
  type t ht := by
    refine hb.sound.translate_eq (hb.extends_.pool.has ht) ?_
    rw [hb.extends_.pool.unfold hclosed.ordered ht, ha.extends_.pool.unfold hclosed.ordered ht]

/-- Whether it was copied or not, a symbol of the program is taken from what it became in one
result to what it became in the other. -/
theorem translation_symbol (ha : a.Copies program root target rule tree)
    (hb : b.Copies program root target rule tree) (hclosed : program.Closed) {k : Kind}
    {id : SymbolId k} (hid : program.symbols.Allocated id.symbol) :
    (translation a b (root.keys program.symbols)).symbol k (a.exchange.symbol k id) =
      b.exchange.symbol k id := by
  by_cases hkey : id.symbol ∈ root.keys program.symbols
  · exact ha.translation_copy hkey
  · rw [ha.kept hid hkey, hb.kept hid hkey]
    exact (ha.translation_fixes hb hclosed).symbol k id hid

/-- The translation takes the one copy's substituted type to the other copy's. -/
theorem translation_type (ha : a.Copies program root target rule tree)
    (hb : b.Copies program root target rule tree) {t : TypeId}
    (ht : root.Exchanges program rule t) :
    (translation a b (root.keys program.symbols)).type (a.exchange.type t) =
      b.exchange.type t :=
  hb.sound.translate_eq (hb.types ht).1 ((hb.types ht).2.trans (ha.types ht).2.symm)

/-- What is exchanged in one result and then translated is exchanged in the other. -/
theorem translation_agrees (ha : a.Copies program root target rule tree)
    (hb : b.Copies program root target rule tree) (hclosed : program.Closed)
    {symbols : List Symbol} {types : List TypeId}
    (hsymbols : ∀ s ∈ symbols, program.symbols.Allocated s)
    (htypes : ∀ t ∈ types, root.Exchanges program rule t) :
    (a.exchange.trans (translation a b (root.keys program.symbols))).AgreesOn b.exchange symbols
      types where
  symbol _ _ hid := ha.translation_symbol hb hclosed (hsymbols _ hid)
  type t ht := ha.translation_type hb (htypes t ht)

/-- A node of one result, renamed, is the node of the other. -/
theorem rename_exchange (ha : a.Copies program root target rule tree)
    (hb : b.Copies program root target rule tree) (hclosed : program.Closed)
    (hroot : root.ClosedIn program) {n : Node} (hn : n ∈ root.descendants) :
    (n.exchange (root.keys program.symbols) a.exchange).rename
        (translation a b (root.keys program.symbols)) =
      n.exchange (root.keys program.symbols) b.exchange := by
  have hknown := hroot.below hn
  by_cases hmoves : n.Moves (root.keys program.symbols)
  · rw [Node.exchange_of_moves hmoves, Node.exchange_of_moves hmoves, Node.rename_rename]
    exact Node.rename_congr (ha.translation_agrees hb hclosed (fun s hs => hknown.mention hs)
      fun t ht => .node hn hmoves ht)
  · rw [Node.exchange_of_not_moves hmoves, Node.exchange_of_not_moves hmoves]
    exact (ha.translation_fixes hb hclosed).rename_node hknown

/-- A type that a result holds is one of the program or became of one that was exchanged, so
it stands for what it is translated to. -/
theorem unfold_translation (ha : a.Copies program root target rule tree)
    (hb : b.Copies program root target rule tree) (hclosed : program.Closed) {t : TypeId}
    (ht : program.pool.Has t ∨ ∃ u, root.Exchanges program rule u ∧ a.exchange.type u = t) :
    b.program.pool.unfold ((translation a b (root.keys program.symbols)).type t) =
      a.program.pool.unfold t := by
  rcases ht with ht | ⟨u, hu, rfl⟩
  · rw [(ha.translation_fixes hb hclosed).type t ht,
      hb.extends_.pool.unfold hclosed.ordered ht, ha.extends_.pool.unfold hclosed.ordered ht]
  · rw [ha.translation_type hb hu, (hb.types hu).2, (ha.types hu).2]

/-- **Results for the same tree on the same terms agree.** -/
theorem agrees (ha : a.Copies program root target rule tree)
    (hb : b.Copies program root target rule tree) (hclosed : program.Closed)
    (htop : program.pool.Has .any) (htarget : program.symbols.Allocated target.symbol)
    (hroot : root.ClosedIn program) :
    ∃ ρ, a.Agrees b program (root.keys program.symbols) ρ := by
  have hfixes := ha.translation_fixes hb hclosed
  refine ⟨translation a b (root.keys program.symbols), hfixes,
    fun k id hid => ha.translation_copy hid, fun k id id' => hb.injective, ?_,
    fun n hn t ht => ?_, fun k id hid => ?_⟩
  · rw [ha.root_eq, hb.root_eq, Node.transform_transformBelow
      (fun n => by rw [Node.children_exchange]) Node.rename_withChildren
      (hfixes.rename_node (hroot root (.head _)))]
    exact Node.transformBelow_congr fun n hn => (ha.rename_exchange hb hclosed hroot hn).symm
  · refine ha.unfold_translation hb hclosed ?_
    rw [ha.root_eq] at hn
    rcases List.mem_cons.1 hn with rfl | hn
    · rw [Node.transformBelow, Node.types_withChildren] at ht
      exact .inl ((hroot root (.head _)).types t ht)
    · rw [Node.descendants_exchange] at hn
      obtain ⟨m, hm, rfl⟩ := List.mem_map.1 hn
      rw [Node.transform_eq, Node.types_withChildren] at ht
      by_cases hmoves : m.Moves (root.keys program.symbols)
      · rw [Node.exchange_of_moves hmoves, Node.types_rename] at ht
        obtain ⟨u, hu, rfl⟩ := List.mem_map.1 ht
        exact .inr ⟨u, .node hm hmoves hu, rfl⟩
      · rw [Node.exchange_of_not_moves hmoves] at ht
        exact .inl ((hroot.below hm).types t ht)
  · obtain ⟨role, hplays⟩ := Node.exists_plays hid
    obtain ⟨r, hr⟩ := SymbolTable.allocated_iff.1 (Node.key_allocated hclosed hroot hid)
    obtain ⟨name, hcopied⟩ := ha.records hplays hr
    obtain ⟨name', hcopied'⟩ := hb.records hplays hr
    refine ⟨_, _, hcopied, hcopied', ?_, fun t ht => ?_⟩
    · have hagree := ha.translation_agrees hb hclosed
        (hplays.symbols_allocated hclosed hroot hr) fun t ht => .record hplays hr ht
      rw [CopyRole.rename_record hfixes (hclosed.knownTo hr) htarget htop
        (hplays.self_allocated hclosed hroot),
        CopyRole.record_congr ⟨target, rule, a.exchange⟩ hagree]
      exact role.unnamed_record r
    · refine ha.unfold_translation hb hclosed ?_
      rcases role.mem_types_of_record ht with ht | ⟨u, hu, rfl⟩ | rfl
      · exact .inl ((hclosed.knownTo hr).types t ht)
      · exact .inr ⟨u, .record hplays hr hu, rfl⟩
      · exact .inl htop

end Copies

end CopyResult

end Graft
