/-
# Reading the text of a type

The text of a type is made of words, which name primitive types, parameters and classes, and of
punctuation.  What is read off such a text is a phrase (`Phrase`): it has the brackets and the
arrows of the text, and it counts the `?`s behind its parts.  Behind a function type there are
none, for a `?` there belongs to the result.  Texts are read from left to right (`Phrase.onto`), and
no text is that of two phrases, if no two words are spelled alike (`Phrase.onto_injective`).
-/

import Mathlib.Data.List.Basic

namespace Graft

/-! ### Words -/

/-- The characters that end a word. -/
def punctuation : List Char := ['[', ']', '?', '\x7b', '\x7d', ':', '(', ')', ',']

/-- The characters that end a type. -/
def closing : List Char := [']', '\x7d', ':', ')', ',']

/-- A sign that closes something is a punctuation sign. -/
theorem closing_subset : closing ⊆ punctuation :=
  (by decide : closing.Sublist punctuation).subset

/-- The text can stand for a word. -/
def IsWord (text : List Char) : Prop := text ≠ [] ∧ ∀ c ∈ text, c ∉ punctuation

instance (text : List Char) : Decidable (IsWord text) :=
  -- not by going through all characters that there are
  have : Decidable (∀ c ∈ text, c ∉ punctuation) := List.decidableBAll (· ∉ punctuation) text
  inferInstanceAs (Decidable (_ ∧ _))

/-- What comes next does not go on with a word. -/
def Breaks (rest : List Char) : Prop := ∀ c ∈ rest.head?, c ∈ punctuation

/-- What comes next does not go on with a type. -/
def Stops (rest : List Char) : Prop := ∀ c ∈ rest.head?, c ∈ closing

/-- At the end of the text a phrase may stop. -/
theorem stops_nil : Stops [] := nofun

/-- A phrase may stop where the next sign is one that closes. -/
theorem stops_cons {c : Char} {rest : List Char} : Stops (c :: rest) ↔ c ∈ closing := by
  simp [Stops]

/-- A word ends where the punctuation begins. -/
theorem IsWord.append_inj {v w rest rest' : List Char} (hv : IsWord v) (hw : IsWord w)
    (hrest : Breaks rest) (hrest' : Breaks rest') (h : v ++ rest = w ++ rest') :
    v = w ∧ rest = rest' := by
  rcases List.append_eq_append_iff.1 h with ⟨more, rfl, rfl⟩ | ⟨more, rfl, rfl⟩
  · cases more with
    | nil => exact ⟨(List.append_nil v).symm, rfl⟩
    | cons c more => exact absurd (hrest c rfl) (hw.2 c (List.mem_append_right _ (.head _)))
  · cases more with
    | nil => exact ⟨List.append_nil w, rfl⟩
    | cons c more => exact absurd (hrest' c rfl) (hv.2 c (List.mem_append_right _ (.head _)))

/-- Some `?`s in front of what comes next. -/
def marked (marks : Nat) (rest : List Char) : List Char := List.replicate marks '?' ++ rest

/-- One more mark stands in front of the rest. -/
theorem marked_succ (marks : Nat) (rest : List Char) :
    marked (marks + 1) rest = marked marks ('?' :: rest) := by
  rw [marked, marked, List.replicate_succ', List.append_assoc, List.singleton_append]

/-- Behind a type are `?`s or the end. -/
theorem mem_of_head?_marked {marks : Nat} {rest : List Char} (h : Stops rest) {c : Char}
    (hc : c ∈ (marked marks rest).head?) : c ∈ '?' :: closing := by
  cases marks with
  | zero => exact .tail _ (h c hc)
  | succ marks =>
    cases hc
    exact .head _

/-- Marks followed by a place to stop break a word off. -/
theorem Stops.marked_breaks {rest : List Char} (h : Stops rest) (marks : Nat) :
    Breaks (marked marks rest) := by
  intro c hc
  rcases List.mem_cons.1 (mem_of_head?_marked h hc) with rfl | hclosing
  · decide
  · exact closing_subset hclosing

/-- The `?`s can be counted. -/
theorem marked_inj {m n : Nat} {rest rest' : List Char} (hrest : Stops rest)
    (hrest' : Stops rest') (h : marked m rest = marked n rest') : m = n ∧ rest = rest' := by
  induction m generalizing n with
  | zero =>
    cases n with
    | zero => exact ⟨rfl, h⟩
    | succ n =>
      have hhead : '?' ∈ rest.head? := congrArg List.head? h
      exact absurd (hrest _ hhead) (by decide)
  | succ m ih =>
    cases n with
    | zero =>
      have hhead : '?' ∈ rest'.head? := congrArg List.head? h.symm
      exact absurd (hrest' _ hhead) (by decide)
    | succ n =>
      obtain ⟨rfl, hrest⟩ := ih (List.cons.inj h).2
      exact ⟨rfl, hrest⟩

/-! ### Phrases -/

/-- What is read off the text of a type, where a word stands for an `α`. -/
inductive Phrase (α : Type) where
  /-- `word??` or `word[args]??` -/
  | word (a : α) (args : List (Phrase α)) (marks : Nat)
  /-- `()??` -/
  | unit (marks : Nat)
  /-- `[elem]??` -/
  | list (elem : Phrase α) (marks : Nat)
  /-- `{key: value}??` -/
  | map (key value : Phrase α) (marks : Nat)
  /-- `(params) -> result` -/
  | function (params : List (Phrase α)) (result : Phrase α)

namespace Phrase

variable {α : Type}

/-- Induction over phrases, with the parts that stand in lists. -/
@[induction_eliminator]
theorem induction {motive : Phrase α → Prop}
    (word : ∀ a args marks, (∀ p ∈ args, motive p) → motive (.word a args marks))
    (unit : ∀ marks, motive (.unit marks))
    (list : ∀ elem marks, motive elem → motive (.list elem marks))
    (map : ∀ key value marks, motive key → motive value → motive (.map key value marks))
    (function : ∀ params result, (∀ p ∈ params, motive p) → motive result →
      motive (.function params result))
    (p : Phrase α) : motive p :=
  @Phrase.rec α motive (fun ps => ∀ p ∈ ps, motive p) word unit list map function
    nofun (fun _ _ hp hps => List.forall_mem_cons.2 ⟨hp, hps⟩) p

mutual

/-- The words of a phrase. -/
def words : Phrase α → List α
  | .word a args _ => a :: wordsAll args
  | .unit _ => []
  | .list elem _ => words elem
  | .map key value _ => words key ++ words value
  | .function params result => wordsAll params ++ words result

/-- The words of several phrases, in order. -/
def wordsAll : List (Phrase α) → List α
  | [] => []
  | p :: ps => words p ++ wordsAll ps

end

mutual

/-- The text of a phrase in front of what comes next. -/
def onto (spell : α → List Char) : Phrase α → List Char → List Char
  | .word a args marks, rest =>
    spell a ++
      if args.isEmpty then marked marks rest
      else '[' :: listOnto spell args (']' :: marked marks rest)
  | .unit marks, rest => '(' :: ')' :: marked marks rest
  | .list elem marks, rest => '[' :: onto spell elem (']' :: marked marks rest)
  | .map key value marks, rest =>
    '\x7b' :: onto spell key (':' :: ' ' :: onto spell value ('\x7d' :: marked marks rest))
  | .function params result, rest =>
    '(' :: listOnto spell params (')' :: ' ' :: '-' :: '>' :: ' ' :: onto spell result rest)

/-- The text of some phrases, with commas between them. -/
def listOnto (spell : α → List Char) : List (Phrase α) → List Char → List Char
  | [], rest => rest
  | p :: ps, rest => onto spell p (tailOnto spell ps rest)

/-- The text of some phrases, with commas before them. -/
def tailOnto (spell : α → List Char) : List (Phrase α) → List Char → List Char
  | [], rest => rest
  | p :: ps, rest => ',' :: ' ' :: onto spell p (tailOnto spell ps rest)

end

/-- The phrase with one more `?` behind it. -/
def mark : Phrase α → Phrase α
  | .word a args marks => .word a args (marks + 1)
  | .unit marks => .unit (marks + 1)
  | .list elem marks => .list elem (marks + 1)
  | .map key value marks => .map key value (marks + 1)
  | .function params result => .function params (mark result)

/-- The words of several phrases are the words of each. -/
@[simp]
theorem wordsAll_eq_flatMap (ps : List (Phrase α)) : wordsAll ps = ps.flatMap words := by
  induction ps with
  | nil => rfl
  | cons p ps ih => rw [wordsAll, ih, List.flatMap_cons]

/-- What holds of all the words of a word phrase holds of the word itself and of its arguments'. -/
theorem forall_mem_words_word {used : α → Prop} {a : α} {args : List (Phrase α)} {marks : Nat} :
    (∀ b ∈ (word a args marks).words, used b) ↔ used a ∧ ∀ p ∈ args, ∀ b ∈ p.words, used b := by
  rw [words, wordsAll_eq_flatMap, List.forall_mem_cons, List.forall_mem_flatMap]

/-- What holds of all the words of a function phrase holds of its parameters' and of its result's.
-/
theorem forall_mem_words_function {used : α → Prop} {params : List (Phrase α)}
    {result : Phrase α} :
    (∀ b ∈ (function params result).words, used b) ↔
      (∀ p ∈ params, ∀ b ∈ p.words, used b) ∧ ∀ b ∈ result.words, used b := by
  rw [words, wordsAll_eq_flatMap, List.forall_mem_append, List.forall_mem_flatMap]

/-- A mark brings no word with it. -/
theorem words_mark (p : Phrase α) : p.mark.words = p.words := by
  induction p with
  | function params result _ ih => rw [mark, words, words, ih]
  | word | unit | list | map => rfl

/-- A mark is written right after the phrase. -/
theorem onto_mark (spell : α → List Char) (p : Phrase α) (rest : List Char) :
    p.mark.onto spell rest = p.onto spell ('?' :: rest) := by
  induction p with
  | function params result _ ih => rw [mark, onto, onto, ih]
  | word | unit | list | map => simp only [mark, onto, marked_succ]

/-! ### Reading -/

/-- The punctuation that a phrase begins with, if it does not begin with a word. -/
def opening? : Phrase α → Option Char
  | .word .. => none
  | .unit _ => some '('
  | .list .. => some '['
  | .map .. => some '\x7b'
  | .function .. => some '('

/-- The words that are used are spelled as words, and no two of them alike. -/
structure Spelled (spell : α → List Char) (used : α → Prop) : Prop where
  isWord : ∀ a, used a → IsWord (spell a)
  injective : ∀ a b, used a → used b → spell a = spell b → a = b

variable {spell : α → List Char} {used : α → Prop} {p q : Phrase α} {rest rest' : List Char}

/-- The first character of a text tells whether a word comes, or what is opened. -/
theorem head?_onto (hs : Spelled spell used) (hp : ∀ a ∈ p.words, used a) (rest : List Char) :
    ∃ c ∈ (p.onto spell rest).head?,
      p.opening? = if c ∈ punctuation then some c else none := by
  cases p with
  | word a args marks =>
    obtain ⟨hne, hplain⟩ := hs.isWord a (hp a (.head _))
    obtain ⟨c, text, htext⟩ := List.exists_cons_of_ne_nil hne
    have hc : c ∉ punctuation := hplain c (htext ▸ .head _)
    refine ⟨c, ?_, (if_neg hc).symm⟩
    rw [onto, htext]
    rfl
  | unit | list | map | function => exact ⟨_, rfl, rfl⟩

/-- Phrases with the same text begin in the same way. -/
theorem opening?_eq (hs : Spelled spell used) (hp : ∀ a ∈ p.words, used a)
    (hq : ∀ a ∈ q.words, used a) (h : p.onto spell rest = q.onto spell rest') :
    p.opening? = q.opening? := by
  obtain ⟨c, hc, hpc⟩ := head?_onto hs hp rest
  obtain ⟨d, hd, hqd⟩ := head?_onto hs hq rest'
  rw [h] at hc
  obtain rfl : c = d := Option.some.inj (hc.symm.trans hd)
  rw [hpc, hqd]

/-- A phrase does not begin with what ends one. -/
theorem not_stops_onto (hs : Spelled spell used) (hp : ∀ a ∈ p.words, used a)
    (rest : List Char) : ¬Stops (p.onto spell rest) := by
  obtain ⟨c, hc, hopening⟩ := head?_onto hs hp rest
  intro hstops
  have hclosing := hstops c hc
  rw [if_pos (closing_subset hclosing)] at hopening
  have hopens : ∀ c ∈ p.opening?, c ∉ closing := by
    cases p <;> simp [opening?, closing]
  exact hopens c hopening hclosing

/-- The phrase is read off its text, whatever comes next. -/
def ReadsBack (spell : α → List Char) (used : α → Prop) (p : Phrase α) : Prop :=
  ∀ (q : Phrase α) (rest rest' : List Char), (∀ a ∈ q.words, used a) → Stops rest →
    Stops rest' → p.onto spell rest = q.onto spell rest' → p = q ∧ rest = rest'

/-- After the items that follow in a list, a phrase may stop wherever it may stop after the list. -/
theorem stops_tailOnto (ps : List (Phrase α)) (h : Stops rest) :
    Stops (tailOnto spell ps rest) := by
  cases ps with
  | nil => exact h
  | cons p ps => exact stops_cons.2 (by decide)

/-- Phrases with commas before them are read off their text up to another sign. -/
theorem tailOnto_inj {c : Char} (hc : c ∈ closing) (hcomma : c ≠ ',') {ps qs : List (Phrase α)}
    (hps : ∀ p ∈ ps, ReadsBack spell used p) (hqs : ∀ q ∈ qs, ∀ a ∈ q.words, used a)
    (h : tailOnto spell ps (c :: rest) = tailOnto spell qs (c :: rest')) :
    ps = qs ∧ rest = rest' := by
  induction ps generalizing qs with
  | nil =>
    cases qs with
    | nil => exact ⟨rfl, (List.cons.inj h).2⟩
    | cons q qs => exact absurd (List.cons.inj h).1 hcomma
  | cons p ps ih =>
    cases qs with
    | nil => exact absurd (List.cons.inj h).1.symm hcomma
    | cons q qs =>
      obtain ⟨hp, hps'⟩ := List.forall_mem_cons.1 hps
      obtain ⟨hq, hqs'⟩ := List.forall_mem_cons.1 hqs
      obtain ⟨rfl, htails⟩ := hp q _ _ hq (stops_tailOnto ps (stops_cons.2 hc))
        (stops_tailOnto qs (stops_cons.2 hc)) (List.cons.inj (List.cons.inj h).2).2
      obtain ⟨rfl, hrest⟩ := ih hps' hqs' htails
      exact ⟨rfl, hrest⟩

/-- Lists that are written the same are the same, if their items can be read back. -/
theorem listOnto_inj (hs : Spelled spell used) {c : Char} (hc : c ∈ closing) (hcomma : c ≠ ',')
    {ps qs : List (Phrase α)} (hps : ∀ p ∈ ps, ReadsBack spell used p)
    (hused : ∀ p ∈ ps, ∀ a ∈ p.words, used a) (hqs : ∀ q ∈ qs, ∀ a ∈ q.words, used a)
    (h : listOnto spell ps (c :: rest) = listOnto spell qs (c :: rest')) :
    ps = qs ∧ rest = rest' := by
  have hstops : ∀ rest, Stops (c :: rest) := fun _ => stops_cons.2 hc
  cases ps with
  | nil =>
    cases qs with
    | nil => exact ⟨rfl, (List.cons.inj h).2⟩
    | cons q qs =>
      have hlast : c :: rest = onto spell q (tailOnto spell qs (c :: rest')) := h
      exact absurd (hlast ▸ hstops rest) (not_stops_onto hs (hqs q (.head _)) _)
  | cons p ps =>
    cases qs with
    | nil =>
      have hlast : onto spell p (tailOnto spell ps (c :: rest)) = c :: rest' := h
      exact absurd (hlast ▸ hstops rest') (not_stops_onto hs (hused p (.head _)) _)
    | cons q qs =>
      obtain ⟨hp, hps'⟩ := List.forall_mem_cons.1 hps
      obtain ⟨hq, hqs'⟩ := List.forall_mem_cons.1 hqs
      obtain ⟨rfl, htails⟩ := hp q _ _ hq (stops_tailOnto ps (hstops rest))
        (stops_tailOnto qs (hstops rest')) h
      obtain ⟨rfl, hrest⟩ := tailOnto_inj hc hcomma hps' hqs' htails
      exact ⟨rfl, hrest⟩

/-- After `()` there is no arrow if this is the unit type. -/
theorem unit_ne_function (hs : Spelled spell used) {params : List (Phrase α)} {result : Phrase α}
    {marks : Nat} (hparams : ∀ p ∈ params, ∀ a ∈ p.words, used a) (hrest : Stops rest) :
    (unit marks).onto spell rest ≠ (function params result).onto spell rest' := by
  intro h
  have htail := (List.cons.inj h).2
  cases params with
  | nil =>
    have hspace : ' ' ∈ (marked marks rest).head? := congrArg List.head? (List.cons.inj htail).2
    exact absurd (mem_of_head?_marked hrest hspace) (by decide)
  | cons p ps =>
    have hstops : Stops (')' :: marked marks rest) := stops_cons.2 (by decide)
    exact not_stops_onto hs (hparams p (.head _)) _ (htail ▸ hstops)

/-- Neither arguments nor what comes behind a type go on with a word. -/
theorem breaks_args (args : List (Phrase α)) {marks : Nat} (hrest : Stops rest) :
    Breaks (if args.isEmpty then marked marks rest
      else '[' :: listOnto spell args (']' :: marked marks rest)) := by
  cases args with
  | nil => exact hrest.marked_breaks marks
  | cons p ps =>
    rintro c ⟨⟩
    decide

/-- Arguments are read off their text. -/
theorem args_inj (hs : Spelled spell used) {args args' : List (Phrase α)} {m n : Nat}
    (hargs : ∀ p ∈ args, ReadsBack spell used p) (hused : ∀ p ∈ args, ∀ a ∈ p.words, used a)
    (hused' : ∀ p ∈ args', ∀ a ∈ p.words, used a) (hrest : Stops rest) (hrest' : Stops rest')
    (h : (if args.isEmpty then marked m rest
        else '[' :: listOnto spell args (']' :: marked m rest)) =
      if args'.isEmpty then marked n rest'
        else '[' :: listOnto spell args' (']' :: marked n rest')) :
    args = args' ∧ m = n ∧ rest = rest' := by
  cases args with
  | nil =>
    cases args' with
    | nil => exact ⟨rfl, marked_inj hrest hrest' h⟩
    | cons p ps =>
      have hbracket : '[' ∈ (marked m rest).head? := congrArg List.head? h
      exact absurd (mem_of_head?_marked hrest hbracket) (by decide)
  | cons p ps =>
    cases args' with
    | nil =>
      have hbracket : '[' ∈ (marked n rest').head? := congrArg List.head? h.symm
      exact absurd (mem_of_head?_marked hrest' hbracket) (by decide)
    | cons q qs =>
      obtain ⟨hlists, hmarks⟩ := listOnto_inj hs (by decide) (by decide) hargs hused hused'
        (List.cons.inj h).2
      exact ⟨hlists, marked_inj hrest hrest' hmarks⟩

/-- **Phrases are read off their texts.**  What comes first tells what kind of phrase it is, and
then its parts are read one after the other. -/
theorem readsBack (hs : Spelled spell used) (hp : ∀ a ∈ p.words, used a) :
    ReadsBack spell used p := by
  -- both phrases open in the same way, so they are of one form, but for the unit and functions
  induction p with
  | word a args m ih =>
    intro q rest rest' hq hrest hrest' h
    have hopening := opening?_eq hs hp hq h
    cases q with
    | word b args' n =>
      obtain ⟨ha, hargs⟩ := forall_mem_words_word.1 hp
      obtain ⟨hb, hargs'⟩ := forall_mem_words_word.1 hq
      obtain ⟨hword, hafter⟩ := (hs.isWord a ha).append_inj (hs.isWord b hb)
        (breaks_args args hrest) (breaks_args args' hrest') h
      obtain rfl := hs.injective a b ha hb hword
      obtain ⟨rfl, rfl, hrests⟩ := args_inj hs (fun p hp => ih p hp (hargs p hp)) hargs hargs'
        hrest hrest' hafter
      exact ⟨rfl, hrests⟩
    | unit | list | map | function => cases hopening
  | unit m =>
    intro q rest rest' hq hrest hrest' h
    have hopening := opening?_eq hs hp hq h
    cases q with
    | unit n =>
      obtain ⟨rfl, hrests⟩ := marked_inj hrest hrest' (List.cons.inj (List.cons.inj h).2).2
      exact ⟨rfl, hrests⟩
    | function params result =>
      exact absurd h (unit_ne_function hs (forall_mem_words_function.1 hq).1 hrest)
    | word | list | map => cases hopening
  | list elem m ih =>
    intro q rest rest' hq hrest hrest' h
    have hopening := opening?_eq hs hp hq h
    cases q with
    | list elem' n =>
      obtain ⟨rfl, hmarks⟩ := ih hp elem' _ _ hq (stops_cons.2 (by decide))
        (stops_cons.2 (by decide)) (List.cons.inj h).2
      obtain ⟨rfl, hrests⟩ := marked_inj hrest hrest' (List.cons.inj hmarks).2
      exact ⟨rfl, hrests⟩
    | word | unit | map | function => cases hopening
  | map key value m ihk ihv =>
    intro q rest rest' hq hrest hrest' h
    have hopening := opening?_eq hs hp hq h
    cases q with
    | map key' value' n =>
      obtain ⟨hk, hv⟩ := List.forall_mem_append.1 hp
      obtain ⟨hk', hv'⟩ := List.forall_mem_append.1 hq
      obtain ⟨rfl, hvalues⟩ := ihk hk key' _ _ hk' (stops_cons.2 (by decide))
        (stops_cons.2 (by decide)) (List.cons.inj h).2
      obtain ⟨rfl, hmarks⟩ := ihv hv value' _ _ hv' (stops_cons.2 (by decide))
        (stops_cons.2 (by decide)) (List.cons.inj (List.cons.inj hvalues).2).2
      obtain ⟨rfl, hrests⟩ := marked_inj hrest hrest' (List.cons.inj hmarks).2
      exact ⟨rfl, hrests⟩
    | word | unit | list | function => cases hopening
  | function params result ihp ihr =>
    intro q rest rest' hq hrest hrest' h
    have hopening := opening?_eq hs hp hq h
    obtain ⟨hparams, hresult⟩ := forall_mem_words_function.1 hp
    cases q with
    | function params' result' =>
      obtain ⟨hparams', hresult'⟩ := forall_mem_words_function.1 hq
      obtain ⟨rfl, harrows⟩ := listOnto_inj hs (by decide) (by decide)
        (fun p hp => ihp p hp (hparams p hp)) hparams hparams' (List.cons.inj h).2
      have hresults : result.onto spell rest = result'.onto spell rest' := by
        simpa using harrows
      obtain ⟨rfl, hrests⟩ := ihr hresult result' _ _ hresult' hrest hrest' hresults
      exact ⟨rfl, hrests⟩
    | unit n => exact absurd h.symm (unit_ne_function hs hparams hrest')
    | word | list | map => cases hopening

/-- **No text is that of two phrases.** -/
theorem onto_injective (hs : Spelled spell used) (hp : ∀ a ∈ p.words, used a)
    (hq : ∀ a ∈ q.words, used a) (h : p.onto spell [] = q.onto spell []) : p = q :=
  (readsBack hs hp q [] [] hq stops_nil stops_nil h).1

end Phrase

end Graft
