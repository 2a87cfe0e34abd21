/-
# Closed trees have a text

The text of a tree looks up the records that its nodes mention, the class of a
constructor, the parameters of a callable and their types.  In a closed program all of
them are there, and a type is written in finitely many steps since it comes after its
parts.  So a closed tree can always be written (`Program.Closed.exists_dump`).
-/

import Graft.Proofs.Program.Closed
import Graft.Proofs.Type.Unfold
import Graft.Tree.Text

namespace Graft

/-- The computation gives a value. -/
def Defined {ε α : Type} (m : Except ε α) : Prop := ∃ a, m = .ok a

namespace Defined

variable {ε α β : Type} {m : Except ε α}

/-- A value is always produced. -/
theorem pure (a : α) : Defined (Pure.pure a : Except ε α) := ⟨a, rfl⟩

/-- A computation in two steps gives a value if the first does and the second does on that value. -/
theorem bind {f : α → Except ε β} (hm : Defined m) (hf : ∀ a, m = .ok a → Defined (f a)) :
    Defined (m >>= f) := by
  obtain ⟨a, rfl⟩ := hm
  exact hf a rfl

/-- A list of computations gives its values if each of them gives one. -/
theorem mapM {f : β → Except ε α} {xs : List β} (hf : ∀ x ∈ xs, Defined (f x)) :
    Defined (xs.mapM f) := by
  induction xs with
  | nil => exact pure []
  | cons x xs ih =>
    rw [List.mapM_cons]
    exact (hf x (.head _)).bind fun _ _ => (ih fun y hy => hf y (.tail _ hy)).bind fun _ _ => pure _

end Defined

/-- The text of a type is defined if the texts of its parts are. -/
theorem TypeShape.defined_render {shape : TypeShape} {names : Interner}
    {part : TypeId → Except Unallocated String}
    (h : ∀ t ∈ shape.children, Defined (part t)) : Defined (shape.render names part) := by
  cases shape with
  | primitive | param => exact Defined.pure _
  | list elem => exact (h elem (.head _)).bind fun _ _ => Defined.pure _
  | option inner => exact (h inner (.head _)).bind fun _ _ => Defined.pure _
  | map key value =>
    exact (h key (.head _)).bind fun _ _ => (h value (.tail _ (.head _))).bind fun _ _ =>
      Defined.pure _
  | function params result =>
    have hparams : Defined (params.mapM part) :=
      Defined.mapM fun p hp => h p (List.mem_append_left _ hp)
    have hresult : Defined (part result) := h result (List.mem_append_right _ (.head _))
    exact hparams.bind fun _ _ => hresult.bind fun _ _ => Defined.pure _
  | named name args =>
    cases args with
    | nil => exact Defined.pure _
    | cons a args => exact (Defined.mapM h).bind fun _ _ => Defined.pure _

/-- Every type of an ordered pool can be written. -/
theorem TypePool.Ordered.defined_display {pool : TypePool} (ho : pool.Ordered) (names : Interner)
    {t : TypeId} (ht : pool.Has t) : Defined (pool.display names t) := by
  have hbelow : ∀ bound, t.raw < bound → Defined (pool.displayBelow names bound t) := by
    induction t, ht using ho.induction with
    | step t e he ih =>
      intro bound hb
      obtain ⟨bound, rfl⟩ := Nat.exists_eq_succ_of_ne_zero (Nat.ne_zero_of_lt hb)
      rw [displayBelow, he]
      refine TypeShape.defined_render fun part hp => ih part hp bound ?_
      have hlt := ho.part_lt he hp
      omega
  exact hbelow _ (Nat.lt_succ_self _)

namespace SymbolTable

variable {table : SymbolTable} {k : Kind} {id : SymbolId k} {r : Record k}

/-- Reading a record of the table succeeds just when the record is there. -/
theorem get_eq_ok : table.get id = .ok r ↔ table.get? id = some r := by
  rw [get]
  cases table.get? id <;> simp

/-- A record that is allocated can be read. -/
theorem defined_get (hid : table.Allocated id.symbol) : Defined (table.get id) := by
  obtain ⟨r, hr⟩ := allocated_iff.1 hid
  exact ⟨r, get_eq_ok.2 hr⟩

end SymbolTable

namespace Program.Closed

open SymbolTable

variable {program : Program} {n : Node}

/-- A type of a closed program's pool has a text. -/
theorem defined_typeText (h : program.Closed) {t : TypeId} (ht : program.pool.Has t) :
    Defined (program.typeText t) := h.ordered.defined_display _ ht

/-- A callable of a closed program has a text. -/
theorem defined_callableText (h : program.Closed) {callable : Callable}
    (hc : program.symbols.Allocated callable.symbol) : Defined (program.callableText callable) := by
  cases callable with
  | fn id => exact (defined_get hc).bind fun _ _ => .pure _
  | ctor id =>
    refine (defined_get hc).bind fun r hr => ?_
    exact (defined_get (h.allocated (get_eq_ok.1 hr) (.head _))).bind fun _ _ => .pure _

/-- A readable that is allocated has a text. -/
theorem defined_valueText {readable : Readable}
    (hv : program.symbols.Allocated readable.symbol) : Defined (program.valueText readable) := by
  cases readable <;> exact (defined_get hv).bind fun _ _ => .pure _

/-- A value parameter of a closed program has a text. -/
theorem defined_paramText (h : program.Closed) {id : ParamId}
    (hp : program.symbols.Allocated id.symbol) : Defined (program.paramText id) := by
  refine (defined_get hp).bind fun r hr => ?_
  exact (h.defined_typeText (h.has (get_eq_ok.1 hr) (.head _))).bind fun _ _ => .pure _

/-- The parameters of a callable of a closed program have a text. -/
theorem defined_paramsText (h : program.Closed) {callable : Callable}
    (hc : program.symbols.Allocated callable.symbol) : Defined (program.paramsText callable) := by
  have hlist : ∃ params, program.symbols.paramList callable = .ok params ∧
      ∀ p ∈ params, program.symbols.Allocated p.symbol := by
    cases callable with
    | fn id =>
      obtain ⟨r, hr⟩ := allocated_iff.1 hc
      refine ⟨r.params, by rw [paramList, get_eq_ok.2 hr]; rfl, fun p hp => h.allocated hr ?_⟩
      exact List.mem_append_right _ (List.mem_map_of_mem hp)
    | ctor id =>
      obtain ⟨r, hr⟩ := allocated_iff.1 hc
      refine ⟨r.params, by rw [paramList, get_eq_ok.2 hr]; rfl, fun p hp => h.allocated hr ?_⟩
      exact .tail _ (List.mem_append_right _ (List.mem_map_of_mem hp))
  obtain ⟨params, hparams, hall⟩ := hlist
  rw [paramsText, hparams]
  exact (Defined.mapM fun p hp => h.defined_paramText (hall p hp)).bind fun _ _ => .pure _

/-- Type arguments have a text when their parameters are allocated and their types are in the pool.
-/
theorem defined_typeArgsText (h : program.Closed) {args : Option TypeArguments}
    (hsymbols : ∀ e ∈ args.elim [] TypeArguments.entries, program.symbols.Allocated e.1.symbol)
    (htypes : ∀ e ∈ args.elim [] TypeArguments.entries, program.pool.Has e.2) :
    Defined (program.typeArgsText args) := by
  match args with
  | none => exact .pure _
  | some ⟨[]⟩ => exact .pure _
  | some ⟨e :: entries⟩ =>
    have hentry : ∀ e' ∈ e :: entries, Defined (program.typeArgText e') := fun e' he =>
      (defined_get (hsymbols e' he)).bind fun _ _ =>
        (h.defined_typeText (htypes e' he)).bind fun _ _ => .pure _
    exact (Defined.mapM hentry).bind fun _ _ => .pure _

/-- The line of a node that is known can be written. -/
theorem defined_nodeText (h : program.Closed) (hn : n.KnownTo program) :
    Defined (program.nodeText n) := by
  have hargs : ∀ e ∈ n.typeArgEntries, program.symbols.Allocated e.1.symbol ∧
      program.pool.Has e.2 := fun e he =>
    ⟨hn.symbols _ (List.mem_append_right _ (List.mem_map_of_mem he)),
      hn.types _ (List.mem_append_right _ (List.mem_map_of_mem he))⟩
  cases n with
  | classDecl => exact (defined_get (hn.mention (.head _))).bind fun _ _ => .pure _
  | functionDecl span origin symbol body =>
    have hsymbol : program.symbols.Allocated (Callable.fn symbol).symbol := hn.mention (.head _)
    refine (defined_get hsymbol).bind fun r hr => ?_
    refine (h.defined_paramsText hsymbol).bind fun _ _ => ?_
    exact (h.defined_typeText (h.has (get_eq_ok.1 hr) (.head _))).bind fun _ _ => .pure _
  | constructorDecl span origin symbol body =>
    have hsymbol : program.symbols.Allocated (Callable.ctor symbol).symbol :=
      hn.mention (.head _)
    exact (h.defined_callableText hsymbol).bind fun _ _ =>
      (h.defined_paramsText hsymbol).bind fun _ _ => .pure _
  | variableDecl =>
    refine (defined_get (hn.mention (.head _))).bind fun r hr => ?_
    exact (h.defined_typeText (h.has (get_eq_ok.1 hr) (.head _))).bind fun _ _ => .pure _
  | call span origin ty callee typeArgs superClass =>
    refine (h.defined_callableText (hn.mention (.head _))).bind fun _ _ => ?_
    refine (h.defined_typeArgsText (fun e he => (hargs e he).1) fun e he => (hargs e he).2).bind
      fun _ _ => ?_
    refine (h.defined_typeText (hn.types _ (.head _))).bind fun _ _ => ?_
    cases superClass with
    | none => exact .pure _
    | some cls =>
      have hcls : program.symbols.Allocated cls.symbol := hn.mention (.tail _ (.head _))
      exact (defined_get hcls).bind fun _ _ => .pure _
  | callableRef =>
    refine (h.defined_callableText (hn.mention (.head _))).bind fun _ _ => ?_
    refine (h.defined_typeArgsText (fun e he => (hargs e he).1) fun e he => (hargs e he).2).bind
      fun _ _ => ?_
    exact (h.defined_typeText (hn.types _ (.head _))).bind fun _ _ => .pure _
  | returnFrom =>
    exact (h.defined_callableText (hn.mention (.head _))).bind fun _ _ => .pure _
  | getValue => exact (defined_valueText (hn.mention (.head _))).bind fun _ _ => .pure _
  | setVariable span origin symbol =>
    have hsymbol : program.symbols.Allocated (Readable.var symbol).symbol :=
      hn.mention (.head _)
    exact (defined_valueText hsymbol).bind fun _ _ => .pure _
  | block | const | «when» =>
    exact (h.defined_typeText (hn.types _ (.head _))).bind fun _ _ => .pure _
  | whileLoop => exact .pure _
  | typeOp =>
    refine (h.defined_typeText (hn.types _ (.tail _ (.head _)))).bind fun _ _ => ?_
    exact (h.defined_typeText (hn.types _ (.head _))).bind fun _ _ => .pure _

/-- **A closed tree can be written.** -/
theorem exists_dump (h : program.Closed) {root : Node} (hroot : root.ClosedIn program) :
    ∃ text, program.dump root = .ok text := by
  have hline : ∀ line ∈ root.outline, Defined (program.lineText line.1 line.2) := by
    intro line hline
    have hnode : line.2 ∈ root :: root.descendants := by
      rw [Node.descendants]
      rw [Node.outline, Node.walk_eq] at hline ⊢
      rw [List.tail_cons]
      rcases List.mem_cons.1 hline with rfl | hline
      · exact .head _
      · exact .tail _ (List.mem_map_of_mem hline)
    exact (h.defined_nodeText (hroot _ hnode)).bind fun _ _ => .pure _
  exact (Defined.mapM hline).bind fun _ _ => .pure _

end Program.Closed

end Graft
