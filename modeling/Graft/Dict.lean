/-
# Hash maps

A hash map holds entries with different keys and in no order: what it says of itself is the same
for every order in which its entries can be met.  So it is taken as a list of entries up to their
order (`Dict`).  Two maps in which every key looks up the same are equal (`Dict.ext`), and a list
of the entries can be had only in an order that the keys bring along (`Dict.toSorted`).

An arena whose entries are found by a hash map keeps the two in step: every entry is looked up as
its handle, and nothing else is (`Dict.Indexes`).  Both start empty, and a step adds a new entry to
both of them (`Dict.Indexes.push`).
-/

namespace Graft

/-- The entries of a hash map in one of the orders in which they can be met.  No two of them have
the same key. -/
structure DictEntries (κ ν : Type) where
  entries : List (κ × ν)
  nodup : (entries.map Prod.fst).Nodup

namespace DictEntries

variable {κ ν : Type}

/-- The same entries may be met in another order. -/
instance setoid (κ ν : Type) : Setoid (DictEntries κ ν) where
  r a b := a.entries.Perm b.entries
  iseqv := ⟨fun _ => .refl _, .symm, .trans⟩

/-- No entry is there twice. -/
theorem nodup_entries (es : DictEntries κ ν) : es.entries.Nodup :=
  (List.pairwise_map.1 es.nodup).imp fun hne heq => hne (congrArg Prod.fst heq)

/-- Entries in the order of their keys, which a number tells apart. -/
def sorted (rank : κ → Nat) (es : DictEntries κ ν) : List (κ × ν) :=
  es.entries.mergeSort fun a b => rank a.1 ≤ rank b.1

/-- The entries are sorted by the ranks of their keys, which all differ. -/
theorem sorted_pairwise {rank : κ → Nat} (hrank : Function.Injective rank)
    (es : DictEntries κ ν) : (es.sorted rank).Pairwise fun a b => rank a.1 < rank b.1 := by
  have hle : (es.sorted rank).Pairwise fun a b => rank a.1 ≤ rank b.1 :=
    (List.pairwise_mergeSort (fun a b c => by simpa using Nat.le_trans)
      (fun a b => by simpa using Nat.le_total _ _) es.entries).imp of_decide_eq_true
  have hne : (es.sorted rank).Pairwise fun a b => a.1 ≠ b.1 :=
    List.pairwise_map.1 ((List.mergeSort_perm es.entries _).map Prod.fst |>.nodup_iff.2 es.nodup)
  exact (hle.and hne).imp fun ⟨hab, hkeys⟩ => Nat.lt_of_le_of_ne hab fun heq => hkeys (hrank heq)

/-- Sorted, the entries are the same in whatever order they are met. -/
theorem sorted_congr {rank : κ → Nat} (hrank : Function.Injective rank) {a b : DictEntries κ ν}
    (h : a ≈ b) : a.sorted rank = b.sorted rank := by
  have hperm : (a.sorted rank).Perm (b.sorted rank) :=
    (List.mergeSort_perm _ _).trans (h.trans (List.mergeSort_perm _ _).symm)
  refine hperm.eq_of_pairwise (fun x y _ _ hxy hyx => ?_) (a.sorted_pairwise hrank)
    (b.sorted_pairwise hrank)
  exact absurd (Nat.lt_trans hxy hyx) (Nat.lt_irrefl _)

variable [DecidableEq κ]

/-- A key is looked up as what its one entry says. -/
theorem lookup_eq_some_iff (es : DictEntries κ ν) {key : κ} {value : ν} :
    es.entries.lookup key = some value ↔ (key, value) ∈ es.entries := by
  obtain ⟨es, hnodup⟩ := es
  induction es with
  | nil => exact iff_of_false nofun nofun
  | cons e es ih =>
    obtain ⟨k, v⟩ := e
    obtain ⟨hk, hes⟩ := List.nodup_cons.1 hnodup
    have ih : es.lookup key = some value ↔ (key, value) ∈ es := ih hes
    dsimp only
    rw [List.lookup_cons, List.mem_cons]
    by_cases hkey : key = k
    · subst hkey
      have hnot : (key, value) ∉ es := fun hmem => hk (List.mem_map.2 ⟨_, hmem, rfl⟩)
      rw [beq_self_eq_true]
      exact ⟨fun h => .inl (Option.some.inj h ▸ rfl),
        fun h => congrArg _ (Prod.mk.inj (h.resolve_right hnot)).2.symm⟩
    · rw [beq_eq_false_iff_ne.2 hkey]
      exact ih.trans ⟨.inr, fun h => h.resolve_left fun heq => hkey (Prod.mk.inj heq).1⟩

/-- The order of the entries makes no difference to a look-up. -/
theorem lookup_congr {a b : DictEntries κ ν} (h : a ≈ b) (key : κ) :
    a.entries.lookup key = b.entries.lookup key := by
  refine Option.ext fun value => ?_
  rw [lookup_eq_some_iff, lookup_eq_some_iff]
  exact List.Perm.mem_iff h

/-- Give a key a value, in place of the one that it had. -/
def insert (es : DictEntries κ ν) (key : κ) (value : ν) : DictEntries κ ν where
  entries := (key, value) :: es.entries.filter fun e => e.1 ≠ key
  nodup := by
    refine List.nodup_cons.2 ⟨fun hmem => ?_, ?_⟩
    · obtain ⟨e, he, heq⟩ := List.mem_map.1 hmem
      exact of_decide_eq_true (List.mem_filter.1 he).2 heq
    · exact es.nodup.sublist (List.filter_sublist.map _)

end DictEntries

/-- A hash map. -/
def Dict (κ ν : Type) : Type := Quotient (DictEntries.setoid κ ν)

namespace Dict

variable {κ ν : Type}

/-- The map without entries. -/
def empty : Dict κ ν := Quotient.mk _ ⟨[], .nil⟩

instance : EmptyCollection (Dict κ ν) := ⟨empty⟩

instance : Inhabited (Dict κ ν) := ⟨empty⟩

/-- Maps are equal if they have the same entries. -/
instance [DecidableEq κ] [DecidableEq ν] : DecidableEq (Dict κ ν) :=
  have (a b : DictEntries κ ν) : Decidable (a ≈ b) :=
    inferInstanceAs (Decidable (a.entries.Perm b.entries))
  inferInstanceAs (DecidableEq (Quotient (DictEntries.setoid κ ν)))

/-- The number of entries. -/
def size (d : Dict κ ν) : Nat :=
  Quotient.lift (fun es => es.entries.length) (fun _ _ h => List.Perm.length_eq h) d

/-- The entries in the order of their keys, which a number tells apart. -/
def toSorted (d : Dict κ ν) (rank : κ → Nat) (hrank : Function.Injective rank) : List (κ × ν) :=
  Quotient.lift (DictEntries.sorted rank) (fun _ _ h => DictEntries.sorted_congr hrank h) d

/-- The keys in the list are in their order, each once. -/
theorem toSorted_pairwise (d : Dict κ ν) (hrank : Function.Injective rank) :
    (d.toSorted rank hrank).Pairwise fun a b => rank a.1 < rank b.1 := by
  induction d using Quotient.inductionOn with
  | h es => exact es.sorted_pairwise hrank

/-- The list is as long as the map has entries. -/
theorem length_toSorted (d : Dict κ ν) (hrank : Function.Injective rank) :
    (d.toSorted rank hrank).length = d.size := by
  induction d using Quotient.inductionOn with
  | h es => exact (List.mergeSort_perm es.entries _).length_eq

variable [DecidableEq κ]

/-- The value of a key. -/
def get? (d : Dict κ ν) (key : κ) : Option ν :=
  Quotient.lift (fun es => es.entries.lookup key)
    (fun _ _ h => DictEntries.lookup_congr h key) d

/-- Whether a key has a value. -/
def contains (d : Dict κ ν) (key : κ) : Bool := (d.get? key).isSome

/-- Give a key a value, in place of the one that it had. -/
def insert (d : Dict κ ν) (key : κ) (value : ν) : Dict κ ν :=
  Quotient.lift (fun es => Quotient.mk _ (es.insert key value))
    (fun _ _ h => Quotient.sound ((h.filter _).cons _)) d

variable {d d' : Dict κ ν} {key : κ} {value : ν}

/-- The last value that was given to a key counts. -/
theorem get?_insert (d : Dict κ ν) (key : κ) (value : ν) (k : κ) :
    (d.insert key value).get? k = if k = key then some value else d.get? k := by
  induction d using Quotient.inductionOn with
  | h es =>
    refine Option.ext fun v => ?_
    have hlookup : (((es.insert key value).entries.lookup k = some v) ↔ _) :=
      DictEntries.lookup_eq_some_iff _
    refine hlookup.trans ?_
    rw [DictEntries.insert, List.mem_cons, List.mem_filter]
    split
    · rename_i hk
      subst hk
      exact ⟨fun h => congrArg some (Prod.mk.inj (h.resolve_right fun h => by simp at h)).2.symm,
        fun h => .inl (Option.some.inj h ▸ rfl)⟩
    · rename_i hk
      refine .trans ?_ es.lookup_eq_some_iff.symm
      exact ⟨fun h => (h.resolve_left fun heq => hk (Prod.mk.inj heq).1).1,
        fun h => .inr ⟨h, decide_eq_true hk⟩⟩

/-- **Maps that look up alike are equal.** -/
theorem ext (h : ∀ key, d.get? key = d'.get? key) : d = d' := by
  induction d using Quotient.inductionOn with
  | h es =>
    induction d' using Quotient.inductionOn with
    | h es' =>
      refine Quotient.sound ?_
      refine (List.perm_ext_iff_of_nodup es.nodup_entries es'.nodup_entries).2 fun e => ?_
      rw [← es.lookup_eq_some_iff, ← es'.lookup_eq_some_iff]
      have hsame : es.entries.lookup e.1 = es'.entries.lookup e.1 := h e.1
      rw [hsame]

/-- A new key makes the map one larger. -/
theorem size_insert (h : d.get? key = none) (value : ν) :
    (d.insert key value).size = d.size + 1 := by
  induction d using Quotient.inductionOn with
  | h es =>
    have hall : es.entries.filter (fun e => e.1 ≠ key) = es.entries := by
      refine List.filter_eq_self.2 fun e he => decide_eq_true ?_
      rintro rfl
      have hsome := es.lookup_eq_some_iff.2 he
      have hnone : es.entries.lookup e.1 = none := h
      exact nomatch hnone.symm.trans hsome
    exact congrArg (·.length + 1) hall

variable {rank : κ → Nat} {hrank : Function.Injective rank}

/-- The sorted list has all entries. -/
theorem mem_toSorted : (key, value) ∈ d.toSorted rank hrank ↔ d.get? key = some value := by
  induction d using Quotient.inductionOn with
  | h es =>
    exact (List.mergeSort_perm es.entries _).mem_iff.trans es.lookup_eq_some_iff.symm

/-! ### The index of an arena -/

/-- The map is the index of an arena, in which the entry at a position has the handle of this
position: an entry is looked up as its handle, and what is not there is not found. -/
def Indexes (d : Dict κ ν) (handle : Nat → ν) (arena : Array κ) : Prop :=
  ∀ key i, d.get? key = some (handle i) ↔ arena[i]? = some key

variable {handle : Nat → ν} {arena : Array κ}

/-- The arena without entries has the empty index. -/
theorem indexes_empty (handle : Nat → ν) : (∅ : Dict κ ν).Indexes handle #[] :=
  fun _ _ => iff_of_false nofun nofun

/-- **An arena and its index stay in step** when an entry that is not found is added to both. -/
theorem Indexes.push (h : d.Indexes handle arena) (hinj : Function.Injective handle)
    (hnew : d.get? key = none) :
    (d.insert key (handle arena.size)).Indexes handle (arena.push key) := by
  intro k i
  rw [get?_insert, Array.getElem?_push]
  by_cases hi : i = arena.size
  · rw [if_pos hi]
    subst hi
    constructor
    · intro hk
      split at hk
      · rename_i heq
        exact congrArg some heq.symm
      · exact nomatch (Array.getElem?_eq_none (Nat.le_refl _)).symm.trans ((h k _).1 hk)
    · intro hk
      rw [if_pos (Option.some.inj hk).symm]
  · rw [if_neg hi, ← h k i]
    split
    · rename_i heq
      subst heq
      rw [hnew]
      exact iff_of_false (fun hk => hi (hinj (Option.some.inj hk)).symm) nofun
    · rfl

/-- The arena determines its index. -/
theorem Indexes.eq (h : d.Indexes handle arena) (h' : d'.Indexes handle arena)
    (hsurj : Function.Surjective handle) : d = d' := by
  refine ext fun key => Option.ext fun value => ?_
  obtain ⟨i, rfl⟩ := hsurj value
  exact (h key i).trans (h' key i).symm

end Dict

end Graft
