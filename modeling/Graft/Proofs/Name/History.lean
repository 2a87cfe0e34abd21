/-
# Interners and their histories

An interner is made by calls that give names to strings: a string is interned as it is given, or a
name is generated from one that is looked up (`NameCall`).  A call that finds no room leaves the
interner as it was.  Whatever the calls were, names and strings correspond to each other
(`Interner.Faithful`), and whatever calls come later, every name goes on to stand for the string
that it was given out for (`Interner.after_faithful`).
-/

import Graft.Proofs.Name.Interning

namespace Graft

/-- A call that gives a name to a string. -/
inductive NameCall where
  /-- The string is given. -/
  | intern (text : String)
  /-- A name is generated from another one, by a counter that stands at `next`. -/
  | fresh (scheme : NameScheme) (base : Name) (next : Nat)
deriving DecidableEq, Repr

namespace NameCall

variable {names : Interner} {call : NameCall} {n : Name}

/-- The string that the call gives a name to. -/
def text (names : Interner) : NameCall → String
  | .intern text => text
  | .fresh scheme base next => scheme.text (names.lookup base) next

/-- The interner after the call, however the call ends. -/
def after (names : Interner) : NameCall → Interner
  | .intern text =>
    match names.intern text with
    | .ok (_, names') => names'
    | .error _ => names
  | .fresh scheme base next =>
    match scheme.fresh base { names, next } with
    | .ok _ supply => supply.names
    | .error _ supply => supply.names

/-- The name that the call gives out. -/
def name? (names : Interner) : NameCall → Option Name
  | .intern text =>
    match names.intern text with
    | .ok (n, _) => some n
    | .error _ => none
  | .fresh scheme base next =>
    match scheme.fresh base { names, next } with
    | .ok n _ => some n
    | .error _ _ => none

/-- A call interns its string, or there is no room for the string and nothing changes. -/
theorem interns_or_refused (names : Interner) (call : NameCall) :
    (∃ n, names.intern (call.text names) = .ok (n, call.after names) ∧
      call.name? names = some n) ∨
    (∃ e, names.intern (call.text names) = .error e) ∧ call.after names = names ∧
      call.name? names = none := by
  cases call with
  | intern text =>
    rw [NameCall.text, after, name?]
    cases names.intern text with
    | ok r => exact .inl ⟨r.1, rfl, rfl⟩
    | error e => exact .inr ⟨⟨e, rfl⟩, rfl, rfl⟩
  | fresh scheme base next =>
    rw [NameCall.text, after, name?, NameScheme.fresh]
    dsimp only [NameSupply.take]
    cases names.intern (scheme.text (names.lookup base) next) with
    | ok r => exact .inl ⟨r.1, rfl, rfl⟩
    | error e => exact .inr ⟨⟨e, rfl⟩, rfl, rfl⟩

/-- The name that the call gives out, with the string that it is for. -/
def entry? (names : Interner) (call : NameCall) : Option (String × Name) :=
  (call.name? names).map fun n => (call.text names, n)

end NameCall

namespace Interner

variable {names names' : Interner} {log : List (String × Name)} {text : String} {n : Name}

/-- The interner after some calls. -/
def after (names : Interner) (calls : List NameCall) : Interner :=
  calls.foldl (fun names call => call.after names) names

/-- The names that some calls give out, each with the string that it is for. -/
def givenBy (names : Interner) : List NameCall → List (String × Name)
  | [] => []
  | call :: calls => (call.entry? names).toList ++ givenBy (call.after names) calls

/-- The names that some calls have given out since the start, when the empty string was given the
first name. -/
def given (calls : List NameCall) : List (String × Name) := ("", .empty) :: givenBy {} calls

/-- The names given by calls made one after another. -/
theorem givenBy_append (names : Interner) (calls later : List NameCall) :
    names.givenBy (calls ++ later) = names.givenBy calls ++ (names.after calls).givenBy later := by
  induction calls generalizing names with
  | nil => rfl
  | cons call calls ih =>
    rw [List.cons_append, givenBy, givenBy, ih, List.append_assoc]
    rfl

/-! ### What a call keeps -/

/-- The interner has the strings that were given names, each under its name, and no others. -/
structure Records (names : Interner) (log : List (String × Name)) : Prop where
  means : ∀ e ∈ log, names.Means e.2 e.1
  complete : ∀ i < names.size, ∃ text, (text, ⟨i⟩) ∈ log

/-- The table that holds the empty text only records the empty name. -/
theorem records_start : Records {} [("", .empty)] where
  means := List.forall_mem_singleton.2 rfl
  complete i hi := by
    obtain rfl : i = 0 := Nat.lt_one_iff.1 hi
    exact ⟨"", .head _⟩

/-- Interning a string records its name. -/
theorem Records.intern (h : names.Records log) (hi : names.intern text = .ok (n, names')) :
    names'.Records (log ++ [(text, n)]) where
  means e he := by
    rcases List.mem_append.1 he with he | he
    · exact (h.means e he).extends_ (intern_extends hi)
    · obtain rfl := List.mem_singleton.1 he
      exact intern_means hi
  complete i hlt := by
    -- only the name that the call gives out can be new
    have hold : i < names.size ∨ n = ⟨i⟩ := by
      rcases intern_cases hi with ⟨-, rfl⟩ | ⟨_, -, rfl, rfl⟩
      · exact .inl hlt
      · have hlt : i < names.strings.size + 1 := Nat.lt_of_lt_of_eq hlt (Array.size_push _)
        rcases Nat.lt_succ_iff_lt_or_eq.1 hlt with hlt | rfl
        · exact .inl hlt
        · exact .inr rfl
    rcases hold with hold | rfl
    · obtain ⟨text', hmem⟩ := h.complete i hold
      exact ⟨text', List.mem_append_left _ hmem⟩
    · exact ⟨text, List.mem_append_right _ (.head _)⟩

/-- One more call adds what it was given to the record, if it was given anything new. -/
theorem Records.call (h : names.Records log) (call : NameCall) :
    (call.after names).Records (log ++ (call.entry? names).toList) := by
  rw [NameCall.entry?]
  rcases call.interns_or_refused names with ⟨n, hi, hname⟩ | ⟨-, hsame, hnone⟩
  · rw [hname]
    exact h.intern hi
  · rw [hsame, hnone, Option.map_none, Option.toList_none, List.append_nil]
    exact h

/-- A record goes on through any calls. -/
theorem Records.after (h : names.Records log) (calls : List NameCall) :
    (names.after calls).Records (log ++ names.givenBy calls) := by
  induction calls generalizing names log with
  | nil =>
    rw [givenBy, List.append_nil]
    exact h
  | cons call calls ih =>
    rw [givenBy, ← List.append_assoc]
    exact ih (h.call call)

/-! ### What the calls have made -/

/-- Names and strings correspond to each other. -/
structure Faithful (names : Interner) (log : List (String × Name)) : Prop where
  /-- Equal strings have been given equal names, and different strings different names. -/
  name_eq_iff : ∀ d ∈ log, ∀ e ∈ log, d.2 = e.2 ↔ d.1 = e.1
  /-- The names given out are the numbers below the number of strings. -/
  mem_iff : ∀ n : Name, n ∈ log.map Prod.snd ↔ n.raw < names.size
  /-- A name is looked up as the string that it was given out for. -/
  lookup_eq : ∀ e ∈ log, names.lookup e.2 = e.1
  /-- The string is interned as it is. -/
  intern_eq : ∀ e ∈ log, names.intern e.1 = .ok (e.2, names)
  /-- Any other name is looked up as the empty string. -/
  lookup_eq_empty : ∀ n : Name, n ∉ log.map Prod.snd → names.lookup n = ""
  /-- Every call gives out a name, unless its string is new and all 2³² names are in use. -/
  name?_eq_none_iff : ∀ call : NameCall,
    call.name? names = none ↔ call.text names ∉ log.map Prod.fst ∧ maxName < names.size

/-- The names on record are those that have been handed out. -/
theorem Records.mem_map_snd (h : names.Records log) :
    n ∈ log.map Prod.snd ↔ n.raw < names.size := by
  constructor
  · intro hn
    obtain ⟨e, he, rfl⟩ := List.mem_map.1 hn
    exact (Array.getElem?_eq_some_iff.1 (h.means e he)).1
  · intro hn
    obtain ⟨text, hmem⟩ := h.complete n.raw hn
    exact List.mem_map.2 ⟨_, hmem, rfl⟩

/-- The strings that were given names are those that are found. -/
theorem Records.mem_map_fst (h : names.Records log) :
    text ∈ log.map Prod.fst ↔ ∃ n, names.find? text = some n := by
  constructor
  · intro hmem
    obtain ⟨e, he, rfl⟩ := List.mem_map.1 hmem
    exact ⟨e.2, find?_eq_some_iff.2 (h.means e he)⟩
  · rintro ⟨n, hfind⟩
    have hm : names.Means n text := find?_eq_some_iff.1 hfind
    obtain ⟨text', hmem⟩ := h.complete n.raw (Array.getElem?_eq_some_iff.1 hm).1
    obtain rfl : text' = text := Option.some.inj ((h.means _ hmem).symm.trans hm)
    exact List.mem_map.2 ⟨_, hmem, rfl⟩

/-- A string is refused if it is new and all names are in use. -/
theorem Records.name?_eq_none_iff (h : names.Records log) (call : NameCall) :
    call.name? names = none ↔ call.text names ∉ log.map Prod.fst ∧ maxName < names.size := by
  have hfull : maxName < names.size ↔ ¬ names.strings.size ≤ maxName := Nat.not_le.symm
  rw [h.mem_map_fst, hfull]
  rcases call.interns_or_refused names with ⟨n, hi, hname⟩ | ⟨⟨e, he⟩, -, hnone⟩
  · rw [hname]
    refine iff_of_false nofun ?_
    rintro ⟨hnew, hroom⟩
    rcases intern_cases hi with ⟨hfind, -⟩ | ⟨-, hroom', -, -⟩
    · exact hnew ⟨n, hfind⟩
    · exact hroom hroom'
  · refine iff_of_true hnone ⟨?_, fun hroom => ?_⟩
    · rintro ⟨n, hfind⟩
      rw [intern_of_find? hfind] at he
      cases he
    · cases hfind : names.find? (call.text names) with
      | some n =>
        rw [intern_of_find? hfind] at he
        cases he
      | none =>
        rw [intern_of_new hfind, if_pos hroom] at he
        cases he

/-- A record gives each text one name and each name one text. -/
theorem Records.faithful (h : names.Records log) : names.Faithful log where
  name_eq_iff d hd e he := by
    have hmeans := h.means d hd
    constructor
    · intro hname
      exact Option.some.inj (hmeans.symm.trans (hname ▸ h.means e he))
    · intro htext
      exact hmeans.name_eq (htext ▸ h.means e he)
  mem_iff _ := h.mem_map_snd
  lookup_eq e he := (h.means e he).lookup
  intern_eq e he := intern_of_find? (find?_eq_some_iff.2 (h.means e he))
  lookup_eq_empty n hn := by
    have hout : names.strings.size ≤ n.raw := Nat.not_lt.1 (mt h.mem_map_snd.2 hn)
    rw [lookup, Array.getElem?_eq_none hout, Option.getD_none]
  name?_eq_none_iff := h.name?_eq_none_iff

/-- **Names and strings correspond to each other,** whatever strings were interned and whatever
names were generated, and by whatever counters.  The names that were given out are the numbers below
the number of strings, the first of them for the empty string.  Equal strings have equal names and
different strings different ones, and a name that was not given out is looked up as the empty
string.  After whatever calls are made later, a name is looked up as the string that it was given
out for, and this string is interned under this name and changes nothing. -/
theorem after_faithful (calls later : List NameCall) :
    (after {} calls).Faithful (given calls) ∧
    ∀ e ∈ given calls,
      (after {} (calls ++ later)).lookup e.2 = e.1 ∧
      (after {} (calls ++ later)).intern e.1 = .ok (e.2, after {} (calls ++ later)) := by
  have hfaithful : ∀ calls, (after {} calls).Faithful (given calls) := fun calls =>
    (records_start.after calls).faithful
  refine ⟨hfaithful calls, fun e he => ?_⟩
  -- what was given out once is in every longer log
  have hlater : e ∈ given (calls ++ later) := by
    rw [given, givenBy_append, ← List.cons_append]
    exact List.mem_append_left _ he
  exact ⟨(hfaithful _).lookup_eq e hlater, (hfaithful _).intern_eq e hlater⟩

/-- A name is generated from `x`, and then its text is interned. -/
example : given [.intern "x", .fresh ⟨"main", "foo"⟩ ⟨1⟩ 7, .intern "main_foo_x_7"] =
    [("", ⟨0⟩), ("x", ⟨1⟩), ("main_foo_x_7", ⟨2⟩), ("main_foo_x_7", ⟨2⟩)] := by decide +kernel

end Interner

end Graft
