/-
# What a copy map records

Copies of symbols are recorded one after the other, in five hash maps, and a symbol that has a copy
is not given another (`Recording`).  After any recordings the five maps stand for one partial
function, which takes a symbol to the copy that was recorded for it first (`CopyMap.firstCopy`).
Each of them looks up what this function says of its kind (`CopyMap.recorded_slot`), so every way of
reading the map says it as well (`CopyMap.Denotes`), and the entries, which are sorted kind by kind
and put together, are the graph of the function in the order of the symbols.  So the order in which
copies are recorded makes a difference only where a symbol is recorded twice
(`CopyMap.recorded_denotes`).
-/

import Graft.Copy.State
import Graft.Proofs.Copy.Map
import Mathlib.Data.List.Induction

namespace Graft

/-- An attempt to record the copy of a symbol. -/
structure Recording where
  kind : Kind
  copied : kind.Copied
  original : SymbolId kind
  copy : SymbolId kind

/-- The symbol is of a kind that is copied. -/
instance (r : Recording) : r.kind.Copied := r.copied

namespace CopyMap

variable {k : Kind} {map map' : CopyMap} {r : Recording} {rs rs' : List Recording}
  {f : Symbol → Option Symbol}

/-- The map after an attempt.  It stays as it is if the attempt is rejected. -/
def record (map : CopyMap) (r : Recording) : CopyMap :=
  match map.insert r.original r.copy with
  | .ok map' => map'
  | .error _ => map

/-- The map after some attempts. -/
def recorded (rs : List Recording) : CopyMap := rs.foldl record {}

/-- The copy of a symbol in the first of the attempts that is about the symbol. -/
def firstCopy (rs : List Recording) (a : Symbol) : Option Symbol :=
  (rs.find? fun r => r.original.symbol = a).map fun r => r.copy.symbol

/-- An attempt is rejected if the symbol has a copy, and the symbol is what is reported. -/
theorem insert_cases [k.Copied] (map : CopyMap) (id copy : SymbolId k) :
    (map.copyOf? id.symbol = none ∧ ∃ map', map.insert id copy = .ok map') ∨
    (∃ c, map.copyOf? id.symbol = some c) ∧
      map.insert id copy = .error (.declaredTwice id.symbol) := by
  rw [CopyMap.insert]
  split
  · rename_i hcopied
    rw [contains_symbol] at hcopied
    exact .inr ⟨Option.isSome_iff_exists.1 hcopied, rfl⟩
  · rename_i hnot
    rw [contains_symbol] at hnot
    exact .inl ⟨Option.not_isSome_iff_eq_none.1 hnot, _, rfl⟩

/-- An attempt gives its symbol a copy if the symbol has none. -/
theorem copyOf?_record (map : CopyMap) (r : Recording) (a : Symbol) :
    (map.record r).copyOf? a =
      (map.copyOf? a).or (if r.original.symbol = a then some r.copy.symbol else none) := by
  rw [record]
  rcases map.insert_cases r.original r.copy with ⟨hnone, map', hi⟩ | ⟨⟨c, hc⟩, hi⟩
  · rw [hi]
    dsimp only
    rw [copyOf?_insert hi]
    by_cases ha : a = r.original.symbol
    · rw [if_pos ha, if_pos ha.symm, ha, hnone, Option.none_or]
    · rw [if_neg ha, if_neg (Ne.symm ha), Option.or_none]
  · rw [hi]
    dsimp only
    by_cases ha : r.original.symbol = a
    · rw [← ha, hc, Option.some_or]
    · rw [if_neg ha, Option.or_none]

/-- One attempt more is made in the map after the others. -/
theorem recorded_concat (rs : List Recording) (r : Recording) :
    recorded (rs ++ [r]) = (recorded rs).record r := by
  rw [recorded, recorded, List.foldl_append]
  rfl

/-- One attempt more is the first only for a symbol that no other was about. -/
theorem firstCopy_concat (rs : List Recording) (r : Recording) (a : Symbol) :
    firstCopy (rs ++ [r]) a =
      (firstCopy rs a).or (if r.original.symbol = a then some r.copy.symbol else none) := by
  rw [firstCopy, List.find?_append, Option.map_or, firstCopy]
  congr 1
  by_cases ha : r.original.symbol = a <;> simp [ha]

/-- After any attempts symbols have the copies that were recorded first. -/
theorem copyOf?_recorded (rs : List Recording) (a : Symbol) :
    (recorded rs).copyOf? a = firstCopy rs a := by
  induction rs using List.reverseRecOn with
  | nil => exact copyOf?_empty a
  | append_singleton rs r ih => rw [recorded_concat, copyOf?_record, firstCopy_concat, ih]

/-- **Each of the five hash maps** looks up the copies that were recorded first for the symbols of
its kind, whatever was recorded for symbols of other kinds under the same indices. -/
theorem recorded_slot (rs : List Recording) (id : SymbolId k) :
    (((recorded rs).slot k).get? id).map SymbolId.symbol = firstCopy rs id.symbol :=
  copyOf?_recorded rs id.symbol

/-- **Copy maps are equal if all symbols have the same copies in them,** in whatever order these
were recorded. -/
theorem ext (h : ∀ a, map.copyOf? a = map'.copyOf? a) : map = map' := by
  have hslot : ∀ k, map.slot k = map'.slot k := fun k => Dict.ext fun id => by
    have hcopy : (map.get? id).map SymbolId.symbol = (map'.get? id).map SymbolId.symbol :=
      h id.symbol
    refine Option.map_injective (fun a b hab => ?_) hcopy
    exact congrArg SymbolId.mk (Symbol.mk.inj hab).2
  obtain ⟨classes, functions, constructors, vars, params⟩ := map
  obtain ⟨classes', functions', constructors', vars', params'⟩ := map'
  obtain rfl : classes = classes' := hslot .cls
  obtain rfl : functions = functions' := hslot .fn
  obtain rfl : constructors = constructors' := hslot .ctor
  obtain rfl : vars = vars' := hslot .var
  obtain rfl : params = params' := hslot .param
  rfl

/-! ### Reading the map -/

/-- The map stands for the partial function, however it is read. -/
structure Denotes (map : CopyMap) (f : Symbol → Option Symbol) : Prop where
  /-- Kinds are kept, and type parameters are not mapped. -/
  kind_eq : ∀ a c, f a = some c → c.kind = a.kind ∧ a.kind ≠ .typeParam
  get?_eq : ∀ (k : Kind) (id : SymbolId k), (map.get? id).map SymbolId.symbol = f id.symbol
  redirect_eq : ∀ (k : Kind) (id : SymbolId k),
    (map.redirect id).symbol = (f id.symbol).getD id.symbol
  contains_eq : ∀ (k : Kind) (id : SymbolId k), map.contains id = (f id.symbol).isSome
  isCopied_eq : ∀ a, map.isCopied a = (f a).isSome
  callable?_eq : ∀ callable, (map.callable? callable).map Callable.symbol = f callable.symbol
  readable?_eq : ∀ readable, (map.readable? readable).map Readable.symbol = f readable.symbol
  /-- The pairs are the graph of the function. -/
  mem_pairs_iff : ∀ a c, (a, c) ∈ map.pairs ↔ f a = some c
  nodup : map.pairs.Nodup
  /-- They are ordered by the kind of what was copied, and within a kind by its index. -/
  sorted : map.pairs.Pairwise fun p q =>
    p.1.kind.rank < q.1.kind.rank ∨ p.1.kind = q.1.kind ∧ p.1.index < q.1.index
  /-- The sizes of the five hash maps add up to the number of pairs. -/
  size_eq : map.size = map.pairs.length
  isEmpty_iff : map.isEmpty = true ↔ ∀ a, f a = none

/-- What can be called has a copy as the symbol that it is. -/
theorem callable?_symbol (map : CopyMap) (callable : Callable) :
    (map.callable? callable).map Callable.symbol = map.copyOf? callable.symbol := by
  cases callable with
  | fn id | ctor id =>
    rw [Callable.symbol, copyOf?_symbol, callable?, Option.map_map]
    rfl

/-- What holds a value has a copy as the symbol that it is. -/
theorem readable?_symbol (map : CopyMap) (readable : Readable) :
    (map.readable? readable).map Readable.symbol = map.copyOf? readable.symbol := by
  cases readable with
  | var id | param id =>
    rw [Readable.symbol, copyOf?_symbol, readable?, Option.map_map]
    rfl

/-- A map that counts no pairs has no copy of anything. -/
theorem isEmpty_iff : map.isEmpty = true ↔ ∀ a, map.copyOf? a = none := by
  rw [isEmpty, beq_iff_eq, ← length_pairs, List.length_eq_zero_iff,
    List.eq_nil_iff_forall_not_mem]
  simp only [Option.eq_none_iff_forall_ne_some, ne_eq, ← mem_pairs, Prod.forall]

/-- **The five hash maps are one map of symbols:** whichever of them answers, it says what the copy
of the symbol is. -/
theorem denotes (map : CopyMap) : map.Denotes map.copyOf? where
  kind_eq _ _ hc := ⟨kind_of_copyOf? hc, kind_ne_of_copyOf? hc⟩
  get?_eq _ id := (map.copyOf?_symbol id).symm
  redirect_eq _ id := (map.image_symbol id).symm
  contains_eq _ id := map.contains_symbol id
  isCopied_eq := map.isCopied_eq
  callable?_eq := map.callable?_symbol
  readable?_eq := map.readable?_symbol
  mem_pairs_iff _ _ := mem_pairs
  nodup := .of_map Prod.fst map.keys_nodup
  sorted := map.pairs_sorted.imp Symbol.before_iff.1
  size_eq := map.length_pairs.symm
  isEmpty_iff := isEmpty_iff

/-- **A copy map stands for one partial function,** whatever copies were recorded, and in whatever
order: the function that takes a symbol to the copy that was recorded for it first.  It keeps kinds
and is what each of the five hash maps looks up for its kind; it is read in every way in which the
map can be read; the pairs are its graph, in the order of the symbols, and the map is determined by
it.  One more attempt is accepted if and only if the symbol has no copy.  Otherwise it reports the
symbol and changes nothing, and a copy in progress that makes the attempt stops as it stands. -/
theorem recorded_denotes (rs : List Recording) :
    (recorded rs).Denotes (firstCopy rs) ∧
    (∀ (k : Kind) (id : SymbolId k),
      (((recorded rs).slot k).get? id).map SymbolId.symbol = firstCopy rs id.symbol) ∧
    (∀ r : Recording, (recorded rs).insert r.original r.copy =
      if firstCopy rs r.original.symbol = none then .ok (recorded (rs ++ [r]))
      else .error (.declaredTwice r.original.symbol)) ∧
    (∀ (σ : Type) (s : CopyState σ) (r : Recording),
      CopyM.register r.original r.copy { s with map := recorded rs } =
        if firstCopy rs r.original.symbol = none then .ok () { s with map := recorded (rs ++ [r]) }
        else .error (.rejected (.declaredTwice r.original.symbol))
          { s with map := recorded rs }) ∧
    ∀ rs', recorded rs = recorded rs' ↔ firstCopy rs = firstCopy rs' := by
  have hcopies : ∀ rs, (recorded rs).copyOf? = firstCopy rs := fun rs =>
    funext (copyOf?_recorded rs)
  have hinsert : ∀ r : Recording, (recorded rs).insert r.original r.copy =
      if firstCopy rs r.original.symbol = none then .ok (recorded (rs ++ [r]))
      else .error (.declaredTwice r.original.symbol) := by
    intro r
    rw [recorded_concat, record, ← hcopies]
    rcases (recorded rs).insert_cases r.original r.copy with ⟨hnone, map', hi⟩ | ⟨⟨c, hc⟩, hi⟩
    · rw [if_pos hnone, hi]
    · rw [if_neg (by rw [hc]; nofun), hi]
  refine ⟨hcopies rs ▸ (recorded rs).denotes, fun _ => recorded_slot rs, hinsert, fun σ s r => ?_,
    fun rs' => ⟨fun heq => ?_, fun heq => ?_⟩⟩
  · rw [CopyM.register, hinsert]
    by_cases hnone : firstCopy rs r.original.symbol = none
    · rw [if_pos hnone, if_pos hnone]
    · rw [if_neg hnone, if_neg hnone]
  · rw [← hcopies, heq, hcopies]
  · refine ext fun a => ?_
    rw [copyOf?_recorded, heq, copyOf?_recorded]

/-- Two variables are copied and then a class; the first variable is recorded once more. -/
example :
    (recorded [⟨.var, inferInstance, ⟨4⟩, ⟨9⟩⟩, ⟨.var, inferInstance, ⟨1⟩, ⟨8⟩⟩,
      ⟨.cls, inferInstance, ⟨4⟩, ⟨3⟩⟩, ⟨.var, inferInstance, ⟨4⟩, ⟨7⟩⟩]).pairs =
    [(⟨.cls, 4⟩, ⟨.cls, 3⟩), (⟨.var, 1⟩, ⟨.var, 8⟩), (⟨.var, 4⟩, ⟨.var, 9⟩)] := by cbv

end CopyMap

end Graft
