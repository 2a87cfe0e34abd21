/-
# The interner

Strings are interned: each distinct string is kept once, at the position its `Name` gives, and an
index says which name a string has.  Position 0 always holds the empty string, and nothing is ever
removed, so a name means the same string for ever.
-/

import Graft.Dict
import Graft.Handle

namespace Graft

/-- The interner holds as many strings as there are names. -/
structure CapacityError where
  count : Nat
deriving DecidableEq, Repr

/-- What is reported when there is no name left. -/
def CapacityError.message (e : CapacityError) : String :=
  "interner exceeded capacity: " ++ toString e.count ++
    " strings, max is 4294967295 (0xFFFFFFFF)"

/-- Names are told apart by their numbers. -/
theorem Name.mk_injective : Function.Injective Name.mk := fun _ _ h => congrArg Name.raw h

/-- The interned strings. -/
structure Interner where
  /-- The strings, each at the position of its name. -/
  strings : Array String
  /-- The name of each string. -/
  index : Dict String Name
  /-- What is interned is found under its name, and nothing else is found. -/
  indexes : index.Indexes Name.mk strings

namespace Interner

/-- Interners with the same strings are equal. -/
theorem ext {a b : Interner} (h : a.strings = b.strings) : a = b := by
  obtain ⟨strings, index, hindex⟩ := a
  obtain ⟨strings', index', hindex'⟩ := b
  obtain rfl : strings = strings' := h
  obtain rfl : index = index' := hindex.eq hindex' fun n => ⟨n.raw, rfl⟩
  rfl

/-- The index need not be compared. -/
instance : DecidableEq Interner := fun a b =>
  decidable_of_iff (a.strings = b.strings) ⟨ext, congrArg strings⟩

/-- Names are 32-bit numbers; this is the largest. -/
def maxName : Nat := 4294967295

/-- The name of a string that is interned. -/
def find? (names : Interner) (s : String) : Option Name := names.index.get? s

/-- Add a string that is not interned.  It gets the next name. -/
def push (names : Interner) (s : String) (hnew : names.find? s = none) : Interner where
  strings := names.strings.push s
  index := names.index.insert s ⟨names.strings.size⟩
  indexes := names.indexes.push Name.mk_injective hnew

/-- The interner that holds only the empty string. -/
def start : Interner where
  strings := #[""]
  index := (∅ : Dict String Name).insert "" .empty
  indexes := (Dict.indexes_empty Name.mk).push Name.mk_injective rfl

instance : EmptyCollection Interner := ⟨start⟩

/-- The name of a string, which is interned if it was not before. -/
def intern (names : Interner) (s : String) : Except CapacityError (Name × Interner) :=
  match hfind : names.find? s with
  | some n => .ok (n, names)
  | none =>
    if names.strings.size ≤ maxName then
      .ok (⟨names.strings.size⟩, names.push s hfind)
    else
      .error ⟨names.strings.size⟩

/-- The interner after some strings were interned, as far as there was room. -/
def internAll (names : Interner) (texts : List String) : Interner :=
  texts.foldl (fun names s => match names.intern s with
    | .ok (_, names') => names'
    | .error _ => names) names

/-- The string of a name; unknown names stand for the empty string. -/
def lookup (names : Interner) (n : Name) : String := (names.strings[n.raw]?).getD ""

/-- The number of interned strings, the empty one included. -/
def size (names : Interner) : Nat := names.strings.size

end Interner

end Graft
