/-
# What the line of a node is written from

The line of a node names the symbols that the node mentions, constructors by their classes, and
where it declares a callable, the parameters; and it writes types out, which are made of names
again.  These symbols and types (`Node.writtenSymbols`, `Node.writtenTypes`) are all that it takes:
if they are there and no name among them has a line break, the node has a line, and one line only,
since everything else is literal text or quoted (`Node.Writable.nodeText`).  So the text of a tree
has a line for every node, and shows by its indentation where the nodes stand
(`Program.exists_shows`).
-/

import Graft.Proofs.Copy.Linking
import Graft.Proofs.Symbol.Retention
import Graft.Proofs.Tree.Dump
import Graft.Proofs.Tree.Lines
import Graft.Proofs.Type.Readability

namespace Graft

/-! ### Texts without line breaks -/

namespace Text

variable {s t : String}

/-- A text made of two is unbroken when both are. -/
theorem unbroken_append : Unbroken (s ++ t) ↔ Unbroken s ∧ Unbroken t := by
  simp [Unbroken]

/-- Unbroken texts joined by commas are unbroken. -/
theorem unbroken_intercalate {texts : List String} (h : ∀ s ∈ texts, Unbroken s) :
    Unbroken (", ".intercalate texts) := by
  cases texts with
  | nil => decide
  | cons s texts =>
    obtain ⟨hs, htexts⟩ := List.forall_mem_cons.1 h
    rw [Unbroken, Writes.toList_intercalate, List.mem_append, List.mem_flatMap]
    rintro (hmem | ⟨t, ht, hmem⟩)
    · exact hs hmem
    · exact htexts t ht (by simpa using hmem)

/-- There is no line break among digits. -/
theorem newline_not_mem_toDigits {base : Nat} (hbase : 1 < base) (hle : base ≤ 16) (n : Nat) :
    '\n' ∉ Nat.toDigits base n := by
  have hdigit : ∀ d < 16, '\n' ≠ Nat.digitChar d := by decide
  induction n using Nat.strongRecOn with
  | ind n ih =>
    rw [Nat.toDigits_eq_if hbase]
    split
    · rename_i hlt
      exact List.not_mem_cons_of_ne_of_not_mem (hdigit n (Nat.lt_of_lt_of_le hlt hle)) nofun
    · rw [List.mem_append, not_or, List.mem_singleton]
      have hpos : 0 < n := by omega
      have hmod : n % base < base := Nat.mod_lt _ (by omega)
      exact ⟨ih _ (Nat.div_lt_self hpos hbase), hdigit _ (Nat.lt_of_lt_of_le hmod hle)⟩

/-- A number is written without line breaks. -/
theorem unbroken_int (i : Int) : Unbroken (toString i) := by
  have hnat : ∀ n : Nat, Unbroken n.repr := fun n => by
    rw [Unbroken, Nat.repr, String.toList_ofList]
    exact newline_not_mem_toDigits (by decide) (by decide) n
  rw [Int.toString_eq_repr, Int.repr_eq_if]
  split
  · exact hnat _
  · exact unbroken_append.2 ⟨by decide, hnat _⟩

/-- A line break is not written as it is between delimiters. -/
theorem newline_not_mem_escape (delimiter c : Char) : '\n' ∉ escape delimiter c := by
  have hunicode : '\n' ∉ unicodeEscape c := by
    have hdigits := newline_not_mem_toDigits (by decide) (Nat.le_refl 16) c.toNat
    simp [unicodeEscape, hdigits]
  unfold escape
  split_ifs with h₀ ht hr hn hd hv
  · decide
  · decide
  · decide
  · decide
  · simpa using Ne.symm hn
  · simpa using Ne.symm hn
  · exact hunicode

/-- **Quoted text has no line break in it,** whatever is quoted. -/
theorem unbroken_quote {delimiter : Char} (h : delimiter ≠ '\n') (text : List Char) :
    Unbroken (quote delimiter text) := by
  rw [Unbroken, quote, String.toList_ofList, List.mem_append, List.mem_cons, List.mem_flatMap]
  rintro ((hstart | ⟨c, -, hc⟩) | hend)
  · exact h hstart.symm
  · exact newline_not_mem_escape delimiter c hc
  · exact h (List.mem_singleton.1 hend).symm

/-- The text can stand behind an indentation: it has no line break in it and begins with something
else than a space. -/
def IsHeader (text : String) : Prop := Unbroken text ∧ ∃ c ∈ text.toList.head?, c ≠ ' '

-- the head is looked at; there are too many characters to try them all
instance (text : String) : Decidable (IsHeader text) :=
  @instDecidableAnd _ _ (inferInstanceAs (Decidable (Unbroken text)))
    text.toList.head?.decidableExistsMem

/-- What comes behind the beginning does not matter. -/
theorem IsHeader.append (h : IsHeader s) (ht : Unbroken t) : IsHeader (s ++ t) := by
  obtain ⟨hs, c, hc, hne⟩ := h
  refine ⟨unbroken_append.2 ⟨hs, ht⟩, c, ?_, hne⟩
  rw [String.toList_append, List.head?_append, hc]
  rfl

end Text

open Text

/-- What the right sides of related items all have, each item on the right has. -/
theorem forall_mem_right {α β : Type} {R : α → β → Prop} {P : β → Prop} {xs : List α}
    {ys : List β} (h : List.Forall₂ R xs ys) (hp : ∀ x y, R x y → P y) : ∀ y ∈ ys, P y := by
  induction h with
  | nil => exact nofun
  | cons hxy _ ih => exact List.forall_mem_cons.2 ⟨hp _ _ hxy, ih⟩

/-- The computation gives a value with the property. -/
def Gives {ε α : Type} (P : α → Prop) (m : Except ε α) : Prop := ∃ a, m = .ok a ∧ P a

namespace Gives

variable {ε α β : Type} {P : α → Prop} {Q : β → Prop} {m : Except ε α}

/-- A value that has the property is given. -/
theorem pure {a : α} (h : P a) : Gives P (Pure.pure a : Except ε α) := ⟨a, rfl, h⟩

/-- A value with a property is given in two steps. -/
theorem bind {f : α → Except ε β} (hm : Gives P m) (hf : ∀ a, P a → Gives Q (f a)) :
    Gives Q (m >>= f) := by
  obtain ⟨a, rfl, ha⟩ := hm
  exact hf a ha

/-- Values given over a list are related to its items. -/
theorem mapM {R : β → α → Prop} {f : β → Except ε α} {xs : List β}
    (hf : ∀ x ∈ xs, Gives (R x) (f x)) : Gives (List.Forall₂ R xs) (xs.mapM f) := by
  induction xs with
  | nil => exact pure .nil
  | cons x xs ih =>
    rw [List.mapM_cons]
    obtain ⟨hx, hxs⟩ := List.forall_mem_cons.1 hf
    exact hx.bind fun _ ha => (ih hxs).bind fun _ has => pure (.cons ha has)

/-- Texts without line breaks are put together to one. -/
theorem intercalate {f : β → Except ε String} {xs : List β}
    (hf : ∀ x ∈ xs, Gives Unbroken (f x)) :
    Gives (fun texts => Unbroken (", ".intercalate texts)) (xs.mapM f) := by
  obtain ⟨texts, htexts, hall⟩ := mapM hf
  exact ⟨texts, htexts, unbroken_intercalate (forall_mem_right hall fun _ _ h => h)⟩

end Gives

/-! ### Types -/

namespace Phrase

variable {α : Type} {spell : α → List Char}

/-- The text of the phrase adds no line break to what comes next. -/
def Continues (spell : α → List Char) (p : Phrase α) : Prop :=
  ∀ rest, '\n' ∉ rest → '\n' ∉ p.onto spell rest

/-- Marks bring no line break. -/
theorem newline_not_mem_marked {rest : List Char} (h : '\n' ∉ rest) (marks : Nat) :
    '\n' ∉ marked marks rest := by
  simpa [marked] using h

/-- The items that follow in a list bring no line break if none of them does. -/
theorem newline_not_mem_tailOnto {ps : List (Phrase α)} (hps : ∀ p ∈ ps, p.Continues spell)
    {rest : List Char} (h : '\n' ∉ rest) : '\n' ∉ tailOnto spell ps rest := by
  induction ps with
  | nil => exact h
  | cons p ps ih =>
    obtain ⟨hp, hps⟩ := List.forall_mem_cons.1 hps
    simpa [tailOnto] using hp _ (ih hps)

/-- A list brings no line break if none of its items does. -/
theorem newline_not_mem_listOnto {ps : List (Phrase α)} (hps : ∀ p ∈ ps, p.Continues spell)
    {rest : List Char} (h : '\n' ∉ rest) : '\n' ∉ listOnto spell ps rest := by
  cases ps with
  | nil => exact h
  | cons p ps =>
    obtain ⟨hp, hps⟩ := List.forall_mem_cons.1 hps
    exact hp _ (newline_not_mem_tailOnto hps h)

/-- Where the words have no line break in them, the text of a phrase adds none. -/
theorem continues (p : Phrase α) (hwords : ∀ a ∈ p.words, '\n' ∉ spell a) :
    p.Continues spell := by
  induction p with
  | word a args marks ih =>
    obtain ⟨ha, hargs⟩ := forall_mem_words_word.1 hwords
    have hcontinues : ∀ p ∈ args, p.Continues spell := fun p hp => ih p hp (hargs p hp)
    intro rest h
    have hend := newline_not_mem_marked h marks
    have hclose : '\n' ∉ ']' :: marked marks rest := by simpa using hend
    rw [onto, List.mem_append, not_or]
    refine ⟨ha, ?_⟩
    split
    · exact hend
    · simpa using newline_not_mem_listOnto hcontinues hclose
  | unit marks =>
    intro rest h
    simpa [onto] using newline_not_mem_marked h marks
  | list elem marks ih =>
    intro rest h
    have hclose : '\n' ∉ ']' :: marked marks rest := by simpa using newline_not_mem_marked h marks
    simpa [onto] using ih hwords _ hclose
  | map key value marks ihk ihv =>
    obtain ⟨hkey, hvalue⟩ := List.forall_mem_append.1 hwords
    intro rest h
    have hclose : '\n' ∉ '\x7d' :: marked marks rest := by
      simpa using newline_not_mem_marked h marks
    have hcolon : '\n' ∉ ':' :: ' ' :: value.onto spell ('\x7d' :: marked marks rest) := by
      simpa using ihv hvalue _ hclose
    simpa [onto] using ihk hkey _ hcolon
  | function params result ihp ihr =>
    obtain ⟨hparams, hresult⟩ := forall_mem_words_function.1 hwords
    have hcontinues : ∀ p ∈ params, p.Continues spell := fun p hp => ihp p hp (hparams p hp)
    intro rest h
    have harrow : '\n' ∉ ')' :: ' ' :: '-' :: '>' :: ' ' :: result.onto spell rest := by
      simpa using ihr hresult _ h
    simpa [onto] using newline_not_mem_listOnto hcontinues harrow

end Phrase

namespace TypeTree

/-- The names that a type is written with. -/
def names (t : TypeTree) : List Name := t.phrase.words.filterMap TypeWord.name?

/-- The names in an option are those in its inner type. -/
theorem names_option (inner : TypeTree) : (option inner).names = inner.names := by
  rw [names, phrase, Phrase.words_mark, names]

/-- The names in a map are those in its keys and then those in its values. -/
theorem names_map (key value : TypeTree) : (map key value).names = key.names ++ value.names :=
  List.filterMap_append

/-- The names in several trees are those in each. -/
theorem names_phraseAll (ts : List TypeTree) :
    (Phrase.wordsAll (phraseAll ts)).filterMap TypeWord.name? = ts.flatMap names := by
  rw [phraseAll_eq_map, Phrase.wordsAll_eq_flatMap, List.flatMap_map, List.filterMap_flatMap]
  rfl

/-- The names in a function are those in its parameters and then those in its result. -/
theorem names_function (params : List TypeTree) (result : TypeTree) :
    (function params result).names = params.flatMap names ++ result.names := by
  rw [← names_phraseAll]
  exact List.filterMap_append

/-- The names in a named type are its own name and those in its arguments. -/
theorem names_named (name : Name) (args : List TypeTree) :
    (named name args).names = name :: args.flatMap names := by
  rw [← names_phraseAll]
  rfl

/-- A type whose parameters are replaced is written with its own names and those of the
replacements. -/
theorem mem_names_replace {σ : Name → Nat → Option TypeTree} {t : TypeTree} {x : Name}
    (h : x ∈ (t.replace σ).names) :
    x ∈ t.names ∨ ∃ name id r, σ name id = some r ∧ x ∈ r.names := by
  induction t with
  | primitive p => exact .inl h
  | param name id =>
    rw [replace] at h
    cases hr : σ name id with
    | none =>
      rw [hr] at h
      exact .inl h
    | some r =>
      rw [hr] at h
      exact .inr ⟨name, id, r, hr, h⟩
  | list elem ih => exact ih h
  | option inner ih =>
    rw [replace, names_option] at h
    rw [names_option]
    exact ih h
  | map key value ihk ihv =>
    rw [replace, names_map, List.mem_append] at h
    rw [names_map, List.mem_append]
    rcases h with h | h
    · exact (ihk h).imp_left .inl
    · exact (ihv h).imp_left .inr
  | function params result ihp ihr =>
    rw [replace, names_function, replaceAll_eq_map, List.flatMap_map, List.mem_append,
      List.mem_flatMap] at h
    rw [names_function, List.mem_append, List.mem_flatMap]
    rcases h with ⟨p, hp, h⟩ | h
    · exact (ihp p hp h).imp_left fun hx => .inl ⟨p, hp, hx⟩
    · exact (ihr h).imp_left .inr
  | named name args ih =>
    rw [replace, names_named, replaceAll_eq_map, List.flatMap_map, List.mem_cons,
      List.mem_flatMap] at h
    rw [names_named, List.mem_cons, List.mem_flatMap]
    rcases h with h | ⟨a, ha, h⟩
    · exact .inl (.inl h)
    · exact (ih a ha h).imp_left fun hx => .inr ⟨a, ha, hx⟩

end TypeTree

/-! ### What is written -/

/-- A symbol, and if it is a constructor, its class, after which it is named. -/
def SymbolTable.withClass (table : SymbolTable) (a : Symbol) : List Symbol :=
  a :: (table.classOf? a).toList.map SymbolId.symbol

/-- The type that a declaration is written with: that of a variable or parameter, or the type that a
function returns. -/
def Record.declaredType? : (k : Kind) → Record k → Option TypeId
  | .cls, _ => none
  | .fn, r => some r.returnType
  | .ctor, _ => none
  | .var, r => some r.ty
  | .param, r => some r.ty
  | .typeParam, _ => none

/-- The type that a symbol is declared with; none if it has none or is not allocated. -/
def SymbolTable.declaredType? (table : SymbolTable) (a : Symbol) : Option TypeId :=
  (table.get? (⟨a.index⟩ : SymbolId a.kind)).bind (Record.declaredType? a.kind)

/-- The declared type of a symbol is that of its record. -/
theorem SymbolTable.declaredType?_of_get? {table : SymbolTable} {k : Kind} {id : SymbolId k}
    {r : Record k} (hr : table.get? id = some r) :
    table.declaredType? id.symbol = Record.declaredType? k r := by
  have hsymbol : table.declaredType? id.symbol = (table.get? id).bind (Record.declaredType? k) :=
    rfl
  rw [hsymbol, hr]
  rfl

namespace Node

/-- What a node declares, with its parameters if it is a callable. -/
def declarations (table : SymbolTable) (n : Node) : List Symbol :=
  n.declared?.toList ++ (n.declaredParams table).map SymbolId.symbol

/-- The symbols that the line of a node names. -/
def writtenSymbols (table : SymbolTable) (n : Node) : List Symbol :=
  n.symbols.flatMap table.withClass ++ n.declarations table

/-- The types that the line of a node writes out, and those that the node holds besides. -/
def writtenTypes (table : SymbolTable) (n : Node) : List TypeId :=
  n.types ++ (n.declarations table).filterMap table.declaredType?

end Node

namespace Program

/-- The symbol is there, and its name has no line break in it. -/
structure Nameable (program : Program) (a : Symbol) : Prop where
  allocated : program.symbols.Allocated a
  unbroken : ∀ x ∈ program.symbols.name? a, Unbroken (program.lookup x)

/-- The type is there, and no name in it has a line break. -/
structure Displayable (program : Program) (t : TypeId) : Prop where
  has : program.pool.Has t
  unbroken : ∀ x ∈ (program.pool.unfold t).names, Unbroken (program.lookup x)

instance (program : Program) (a : Symbol) : Decidable (program.Nameable a) :=
  decidable_of_iff
    (program.symbols.Allocated a ∧ ∀ x ∈ program.symbols.name? a, Unbroken (program.lookup x))
    ⟨fun ⟨h₁, h₂⟩ => ⟨h₁, h₂⟩, fun h => ⟨h.allocated, h.unbroken⟩⟩

instance (program : Program) (t : TypeId) : Decidable (program.Displayable t) :=
  decidable_of_iff
    (program.pool.Has t ∧ ∀ x ∈ (program.pool.unfold t).names, Unbroken (program.lookup x))
    ⟨fun ⟨h₁, h₂⟩ => ⟨h₁, h₂⟩, fun h => ⟨h.has, h.unbroken⟩⟩

end Program

/-- What the line of the node is written from is there, and no name in it has a line break. -/
structure Node.Writable (n : Node) (program : Program) : Prop where
  symbols : ∀ a ∈ n.writtenSymbols program.symbols, program.Nameable a
  types : ∀ t ∈ n.writtenTypes program.symbols, program.Displayable t

instance (n : Node) (program : Program) : Decidable (n.Writable program) :=
  decidable_of_iff
    ((∀ a ∈ n.writtenSymbols program.symbols, program.Nameable a) ∧
      ∀ t ∈ n.writtenTypes program.symbols, program.Displayable t)
    ⟨fun ⟨h₁, h₂⟩ => ⟨h₁, h₂⟩, fun h => ⟨h.symbols, h.types⟩⟩

/-! ### The line of a node -/

namespace Program

open SymbolTable (get_eq_ok allocated_iff)

variable {program : Program} {k : Kind} {n : Node}

/-- The record of a symbol that can be named in one line, and its name. -/
theorem Nameable.record {id : SymbolId k} (h : program.Nameable id.symbol) :
    Gives (fun r => program.symbols.get? id = some r ∧
      ∀ x ∈ Record.name? k r, Unbroken (program.lookup x)) (program.symbols.get id) := by
  obtain ⟨r, hr⟩ := allocated_iff.1 h.allocated
  refine ⟨r, get_eq_ok.2 hr, hr, fun x hx => h.unbroken x ?_⟩
  rwa [SymbolTable.name?_of_get? hr]

/-- A type that can be displayed in one line. -/
theorem Displayable.typeText (ho : program.pool.Ordered) {t : TypeId}
    (h : program.Displayable t) : Gives Unbroken (program.typeText t) := by
  obtain ⟨s, hs, htext⟩ := ho.writes program.supply.names h.has
  refine ⟨s, hs, ?_⟩
  have hall := htext []
  rw [List.append_nil] at hall
  rw [Unbroken, hall]
  refine Phrase.continues _ (fun a ha => ?_) [] nofun
  cases hname : a.name? with
  | none =>
    obtain ⟨p, rfl⟩ := TypeWord.exists_primitive hname
    exact (by decide : ∀ p ∈ Primitive.all, Unbroken p.name) p p.mem_all
  | some x =>
    rw [TypeWord.spell, TypeWord.text_of_name? _ hname]
    exact h.unbroken x (List.mem_filterMap.2 ⟨a, ha, hname⟩)

/-- A callable that can be named in one line. -/
theorem gives_callableText {callable : Callable}
    (h : ∀ a ∈ program.symbols.withClass callable.symbol, program.Nameable a) :
    Gives Unbroken (program.callableText callable) := by
  have hself := h _ (.head _)
  cases callable with
  | fn id => exact hself.record.bind fun r hr => .pure (hr.2 r.name rfl)
  | ctor id =>
    refine hself.record.bind fun r hr => ?_
    have hcls : r.cls.symbol ∈ program.symbols.withClass (Callable.ctor id).symbol := by
      refine .tail _ (List.mem_map_of_mem (Option.mem_toList.2 ?_))
      exact Option.map_eq_some_iff.2 ⟨r, hr.1, rfl⟩
    refine (h _ hcls).record.bind fun c hc => .pure ?_
    exact unbroken_append.2 ⟨hc.2 c.name rfl, by decide⟩

/-- A readable that can be named in one line. -/
theorem gives_valueText {readable : Readable} (h : program.Nameable readable.symbol) :
    Gives Unbroken (program.valueText readable) := by
  cases readable with
  | var id => exact h.record.bind fun r hr => .pure (hr.2 r.name rfl)
  | param id => exact h.record.bind fun r hr => .pure (hr.2 r.name rfl)

/-- Type arguments that can be written in one line. -/
theorem gives_typeArgsText (ho : program.pool.Ordered) {args : Option TypeArguments}
    (h : ∀ e ∈ args.elim [] TypeArguments.entries,
      program.Nameable e.1.symbol ∧ program.Displayable e.2) :
    Gives Unbroken (program.typeArgsText args) := by
  match args with
  | none => exact .pure (by decide)
  | some ⟨[]⟩ => exact .pure (by decide)
  | some ⟨e :: entries⟩ =>
    have hentry : ∀ e' ∈ e :: entries, Gives Unbroken (program.typeArgText e') := by
      intro e' he
      obtain ⟨hname, htype⟩ := h e' he
      refine hname.record.bind fun r hr => (htype.typeText ho).bind fun ty hty => .pure ?_
      exact unbroken_append.2 ⟨unbroken_append.2 ⟨hr.2 r.name rfl, by decide⟩, hty⟩
    refine (Gives.intercalate hentry).bind fun texts htexts => .pure ?_
    exact unbroken_append.2 ⟨unbroken_append.2 ⟨by decide, htexts⟩, by decide⟩

/-- Characters and strings are quoted, whatever they are. -/
theorem unbroken_constText (program : Program) (value : Literal) :
    Unbroken (program.constText value) := by
  cases value with
  | int value => exact unbroken_int value
  | bool value => exact (by decide : ∀ b : Bool, Unbroken (if b then "true" else "false")) value
  | char value => exact unbroken_quote (by decide) _
  | str value => exact unbroken_quote (by decide) _
  | unit => exact (by decide : Unbroken "()")
  | null => exact (by decide : Unbroken "null")

end Program

namespace Node.Writable

variable {program : Program} {n : Node} {k : Kind}

/-- What is written for a mention at a writable node can be named in one line. -/
theorem withClass (h : n.Writable program) {a : Symbol} (ha : a ∈ n.mentions) :
    ∀ b ∈ program.symbols.withClass a, program.Nameable b := fun b hb =>
  h.symbols b (List.mem_append_left _
    (List.mem_flatMap.2 ⟨a, List.mem_append_left _ ha, hb⟩))

/-- What a writable node mentions can be named in one line. -/
theorem mention (h : n.Writable program) {a : Symbol} (ha : a ∈ n.mentions) :
    program.Nameable a := h.withClass ha a (.head _)

/-- What a writable node declares can be named in one line. -/
theorem declaration (h : n.Writable program) {a : Symbol}
    (ha : a ∈ n.declarations program.symbols) : program.Nameable a :=
  h.symbols a (List.mem_append_right _ ha)

/-- The types at a writable node are written in one line. -/
theorem typeText (h : n.Writable program) (ho : program.pool.Ordered) {t : TypeId}
    (ht : t ∈ n.types) : Gives Unbroken (program.typeText t) :=
  (h.types t (List.mem_append_left _ ht)).typeText ho

/-- The declared types at a writable node are written in one line. -/
theorem declaredText (h : n.Writable program) (ho : program.pool.Ordered) {id : SymbolId k}
    (hid : id.symbol ∈ n.declarations program.symbols) {r : Record k}
    (hr : program.symbols.get? id = some r) {t : TypeId} (ht : Record.declaredType? k r = some t) :
    Gives Unbroken (program.typeText t) := by
  refine (h.types t (List.mem_append_right _ (List.mem_filterMap.2 ⟨_, hid, ?_⟩))).typeText ho
  rw [SymbolTable.declaredType?_of_get? hr, ht]

/-- The type arguments at a writable node are written in one line. -/
theorem typeArgsText (h : n.Writable program) (ho : program.pool.Ordered) :
    Gives Unbroken (program.typeArgsText n.typeArgs?) := by
  refine Program.gives_typeArgsText ho fun e he => ⟨h.symbols _ ?_, h.types _ ?_⟩
  · refine List.mem_append_left _ (List.mem_flatMap.2 ⟨e.1.symbol, ?_, .head _⟩)
    exact List.mem_append_right _ (List.mem_map_of_mem he)
  · exact List.mem_append_left _ (List.mem_append_right _ (List.mem_map_of_mem he))

/-- The parameters at a writable node are written in one line. -/
theorem paramsText (h : n.Writable program) (ho : program.pool.Ordered) {callable : Callable}
    (hc : n.callable? = some callable) : Gives Unbroken (program.paramsText callable) := by
  have hself : callable.symbol ∈ n.declarations program.symbols :=
    List.mem_append_left _ (Option.mem_toList.2 (declared?_of_callable? hc))
  have hparam : ∀ p ∈ program.symbols.paramsOf callable, Gives Unbroken (program.paramText p) := by
    intro p hp
    have hdeclared : p.symbol ∈ n.declarations program.symbols :=
      List.mem_append_right _ (List.mem_map_of_mem (mem_declaredParams.2 ⟨callable, hc, hp⟩))
    refine (h.declaration hdeclared).record.bind fun r hr => ?_
    refine (h.declaredText ho hdeclared hr.1 rfl).bind fun ty hty => .pure ?_
    exact unbroken_append.2 ⟨unbroken_append.2 ⟨hr.2 r.name rfl, by decide⟩, hty⟩
  obtain ⟨params, hparams⟩ := SymbolTable.exists_paramList (h.declaration hself).allocated
  rw [Program.paramsText, hparams]
  rw [SymbolTable.paramsOf, hparams] at hparam
  exact (Gives.intercalate hparam).bind fun _ h => .pure h

/-- **A node that can be written has a line,** which has no line break in it and does not begin with
a space. -/
theorem nodeText (h : n.Writable program) (ho : program.pool.Ordered) :
    Gives IsHeader (program.nodeText n) := by
  have typed : ∀ {s : String} {t : TypeId}, IsHeader s → t ∈ n.types →
      Gives IsHeader (do return s ++ (← program.typeText t)) := fun hs ht =>
    (h.typeText ho ht).bind fun _ hty => .pure (hs.append hty)
  cases n with
  | classDecl =>
    refine (h.mention (.head _)).record.bind fun c hc => .pure ?_
    exact IsHeader.append (by decide) (hc.2 c.name rfl)
  | functionDecl =>
    refine (h.mention (.head _)).record.bind fun f hf => ?_
    refine (h.paramsText ho rfl).bind fun params hparams => ?_
    refine (h.declaredText ho (.head _) hf.1 rfl).bind fun ty hty => .pure ?_
    have hname : IsHeader ("fun " ++ program.lookup f.name) :=
      IsHeader.append (by decide) (hf.2 f.name rfl)
    exact (((hname.append (by decide)).append hparams).append (by decide)).append hty
  | constructorDecl span origin symbol =>
    have hcallable : Gives Unbroken (program.callableText (.ctor symbol)) :=
      Program.gives_callableText (h.withClass (.head _))
    refine hcallable.bind fun name hname => ?_
    refine (h.paramsText ho rfl).bind fun params hparams => .pure ?_
    have hstart : IsHeader ("constructor " ++ name) := IsHeader.append (by decide) hname
    exact ((hstart.append (by decide)).append hparams).append (by decide)
  | variableDecl =>
    refine (h.mention (.head _)).record.bind fun v hv => ?_
    refine (h.declaredText ho (.head _) hv.1 rfl).bind fun ty hty => .pure ?_
    have hkeyword : IsHeader (if v.isMutable then "var " else "val ") := by
      split <;> decide
    exact ((hkeyword.append (hv.2 v.name rfl)).append (by decide)).append hty
  | call span origin ty callee typeArgs superClass =>
    refine (Program.gives_callableText (h.withClass (.head _))).bind fun name hname => ?_
    refine (h.typeArgsText ho).bind fun args hargs => ?_
    refine (h.typeText ho (.head _)).bind fun ty hty => ?_
    have hstart : IsHeader ("call " ++ name) := IsHeader.append (by decide) hname
    have hline := ((hstart.append hargs).append (t := ": ") (by decide)).append hty
    cases superClass with
    | none => exact .pure hline
    | some cls =>
      have hcls : program.Nameable cls.symbol := h.mention (.tail _ (.head _))
      refine hcls.record.bind fun c hc => .pure ?_
      exact (hline.append (by decide)).append (hc.2 c.name rfl)
  | callableRef =>
    refine (Program.gives_callableText (h.withClass (.head _))).bind fun name hname => ?_
    refine (h.typeArgsText ho).bind fun args hargs => ?_
    have hstart : IsHeader ("ref " ++ name) := IsHeader.append (by decide) hname
    exact typed ((hstart.append hargs).append (by decide)) (.head _)
  | returnFrom =>
    refine (Program.gives_callableText (h.withClass (.head _))).bind fun name hname => .pure ?_
    exact IsHeader.append (by decide) hname
  | getValue =>
    refine (Program.gives_valueText (h.mention (.head _))).bind fun name hname => .pure ?_
    exact IsHeader.append (by decide) hname
  | setVariable span origin symbol =>
    have hsymbol : program.Nameable (Readable.var symbol).symbol := h.mention (.head _)
    refine (Program.gives_valueText hsymbol).bind fun name hname => .pure ?_
    exact IsHeader.append (by decide) hname
  | block | «when» => exact typed (by decide) (.head _)
  | const span ty value =>
    have hstart : IsHeader ("const " ++ program.constText value) :=
      IsHeader.append (by decide) (program.unbroken_constText value)
    exact typed (hstart.append (by decide)) (.head _)
  | whileLoop => exact .pure (by decide)
  | typeOp span ty operator =>
    have hoperator : IsHeader operator.text := by cases operator <;> decide
    refine (h.typeText ho (.tail _ (.head _))).bind fun operand hoperand => ?_
    exact typed (((hoperator.append (by decide)).append hoperand).append (by decide)) (.head _)

end Node.Writable

/-! ### The text of a tree -/

namespace Program

variable {program : Program} {root : Node}

/-- The line of a node at some depth: two spaces for every level, and then the text of the node,
which does not begin with a space. -/
def IsLine (program : Program) (entry : Nat × Node) (line : List Char) : Prop :=
  ∃ s, program.nodeText entry.2 = .ok s ∧ (∃ c ∈ s.toList.head?, c ≠ ' ') ∧
    line = List.replicate (2 * entry.1) ' ' ++ s.toList

/-- The text is that of the tree, and it shows where the nodes stand. -/
structure Shows (program : Program) (root : Node) (text : String) : Prop where
  dump : program.dump root = .ok text
  /-- Every line is ended by a line break. -/
  ended : text.toList = (lines text).flatMap (· ++ ['\n'])
  /-- There are no other line breaks. -/
  unbroken : ∀ line ∈ lines text, '\n' ∉ line
  /-- The lines are those of the nodes, in preorder. -/
  lines : List.Forall₂ program.IsLine root.outline (lines text)
  /-- How many children the nodes have, in preorder, is read off the text. -/
  childCounts : childCounts text = (root :: root.descendants).map (·.children.length)

/-- A line of the dump is indented by twice the depth of its node. -/
theorem IsLine.indent_eq {entry : Nat × Node} {line : List Char} (h : program.IsLine entry line) :
    indent line = 2 * entry.1 := by
  obtain ⟨s, -, hhead, rfl⟩ := h
  exact indent_replicate _ hhead

/-- The indentations of lines tell the depths of the nodes. -/
theorem map_indent {entries : List (Nat × Node)} {ls : List (List Char)}
    (h : List.Forall₂ program.IsLine entries ls) :
    ls.map indent = entries.map fun entry => 2 * entry.1 := by
  rw [← List.forall₂_eq_eq_eq, List.forall₂_map_left_iff, List.forall₂_map_right_iff]
  exact h.flip.imp fun _ _ hline => IsLine.indent_eq hline

/-- The lines are indented by two spaces for every level. -/
theorem Shows.map_indent_lines {text : String} (h : program.Shows root text) :
    (Text.lines text).map indent = (root.depths 0).map (2 * ·) := by
  rw [map_indent h.lines, ← Node.map_fst_outline, List.map_map]
  rfl

/-- The nodes of an outline are those of the tree. -/
theorem snd_mem_of_mem_outline {entry : Nat × Node} (h : entry ∈ root.outline) :
    entry.2 ∈ root :: root.descendants := by
  rw [Node.descendants]
  rw [Node.outline, Node.walk_eq] at h ⊢
  rcases List.mem_cons.1 h with rfl | h
  · exact .head _
  · exact .tail _ (List.mem_map_of_mem h)

/-- The lines that texts consist of, each with its end. -/
theorem exists_lines {entries : List (Nat × Node)} {texts : List String}
    (h : List.Forall₂ (fun entry text => ∃ line, program.IsLine entry line ∧ '\n' ∉ line ∧
      text.toList = line ++ ['\n']) entries texts) :
    ∃ ls, List.Forall₂ program.IsLine entries ls ∧ (∀ line ∈ ls, '\n' ∉ line) ∧
      (String.join texts).toList = ls.flatMap (· ++ ['\n']) := by
  rw [String.toList_join]
  induction h with
  | nil => exact ⟨[], .nil, nofun, rfl⟩
  | cons hline _ ih =>
    obtain ⟨line, hline, hunbroken, hend⟩ := hline
    obtain ⟨ls, hlines, hall, hends⟩ := ih
    refine ⟨line :: ls, .cons hline hlines, List.forall_mem_cons.2 ⟨hunbroken, hall⟩, ?_⟩
    rw [List.flatMap_cons, hend, hends, List.flatMap_cons]

/-- **A tree that can be written has a text,** with a line for every node. -/
theorem exists_shows (ho : program.pool.Ordered)
    (hroot : ∀ n ∈ root :: root.descendants, n.Writable program) :
    ∃ text, program.Shows root text := by
  have hline : ∀ entry ∈ root.outline,
      Gives (fun text => ∃ line, program.IsLine entry line ∧ '\n' ∉ line ∧
        text.toList = line ++ ['\n']) (program.lineText entry.1 entry.2) := by
    intro entry hentry
    obtain ⟨s, hs, hunbroken, hhead⟩ :=
      (hroot _ (snd_mem_of_mem_outline hentry)).nodeText ho
    refine ⟨_, by rw [lineText, hs]; rfl, _, ⟨s, hs, hhead, rfl⟩, ?_, by simp⟩
    rw [List.mem_append, not_or]
    exact ⟨fun hmem => absurd (List.eq_of_mem_replicate hmem) (by decide), hunbroken⟩
  obtain ⟨texts, htexts, hall⟩ := Gives.mapM hline
  obtain ⟨ls, hlines, hunbroken, hends⟩ := exists_lines hall
  have heq : lines (String.join texts) = ls := lines_eq hends hunbroken
  have hdepths : ls.map (fun line => indent line / 2) = root.depths 0 := by
    have hhalf : (fun line => indent line / 2) = (· / 2) ∘ indent := rfl
    rw [hhalf, ← List.map_map, map_indent hlines, List.map_map, ← Node.map_fst_outline]
    exact List.map_congr_left fun entry _ => Nat.mul_div_cancel_left _ Nat.two_pos
  refine ⟨String.join texts, ?_, heq ▸ hends, heq ▸ hunbroken, heq ▸ hlines, ?_⟩
  · rw [dump, htexts]
    rfl
  · rw [childCounts, heq, hdepths, Node.countChildren_depths]

end Program

end Graft
