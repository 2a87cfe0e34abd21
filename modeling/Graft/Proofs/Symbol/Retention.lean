/-
# What stays of a record

Records are added to a table and may be completed, the record of a class with its constructors.
A later table retains the earlier one if it has every record of it, up to that
(`SymbolTable.Retains`).  So the name of a symbol stays, and so does every record that is not one
of a class.
-/

import Graft.Proofs.Symbol.Records

namespace Graft

variable {k : Kind}

namespace Record

/-- What stays of a record that may still be completed. -/
def settled : (k : Kind) → Record k → Record k
  | .cls, r => { r with constructors := [], primary := none }
  | .fn, r => r
  | .ctor, r => r
  | .var, r => r
  | .param, r => r
  | .typeParam, r => r

/-- Only the records of classes are completed. -/
theorem settled_of_ne (hk : k ≠ .cls) (r : Record k) : settled k r = r := by
  cases k with
  | cls => exact absurd rfl hk
  | fn | ctor | var | param | typeParam => rfl

/-- The name of a record.  Constructors have none. -/
def name? : (k : Kind) → Record k → Option Name
  | .cls, r => some r.name
  | .fn, r => some r.name
  | .ctor, _ => none
  | .var, r => some r.name
  | .param, r => some r.name
  | .typeParam, r => some r.name

/-- Completing a record does not rename it. -/
theorem name?_settled (r : Record k) : name? k (settled k r) = name? k r := by
  cases k <;> rfl

end Record

namespace SymbolTable

variable {table later last : SymbolTable}

/-- The name of a symbol; none if it has none or is not allocated. -/
def name? (table : SymbolTable) (a : Symbol) : Option Name :=
  (table.get? (⟨a.index⟩ : SymbolId a.kind)).bind (Record.name? a.kind)

/-- The name of a symbol is that of its record. -/
theorem name?_symbol (table : SymbolTable) (id : SymbolId k) :
    table.name? id.symbol = (table.get? id).bind (Record.name? k) := rfl

/-- The name of a symbol whose record is known. -/
theorem name?_of_get? {id : SymbolId k} {r : Record k} (hr : table.get? id = some r) :
    table.name? id.symbol = Record.name? k r := by
  rw [name?_symbol, hr]
  rfl

/-- Completing a record does not change its name. -/
theorem name?_modify (table : SymbolTable) (id : SymbolId k) {f : Record k → Record k}
    (hf : ∀ r, Record.name? k (f r) = Record.name? k r) {k' : Kind} (id' : SymbolId k') :
    (table.modify id f).name? id'.symbol = table.name? id'.symbol := by
  rw [name?_symbol, name?_symbol]
  by_cases h : id'.symbol = id.symbol
  · obtain rfl : k' = k := congrArg Symbol.kind h
    obtain rfl := SymbolId.symbol_inj.1 h
    rw [get?_modify_self, Option.bind_map]
    exact congrArg _ (funext hf)
  · rw [get?_modify_of_ne table h]

/-- A parameter list does not name anything. -/
theorem name?_setParamList (table : SymbolTable) (params : List ParamId) (callable : Callable)
    (id : SymbolId k) :
    (table.setParamList params callable).name? id.symbol = table.name? id.symbol := by
  cases callable with
  | fn f =>
    exact name?_modify table f (f := fun (r : FunctionRecord) => { r with params })
      (fun _ => rfl) id
  | ctor c =>
    exact name?_modify table c (f := fun (r : ConstructorRecord) => { r with params })
      (fun _ => rfl) id

/-- Every record of the table is in the later one, up to what it may be completed with. -/
def Retains (later table : SymbolTable) : Prop :=
  ∀ (k : Kind) (id : SymbolId k) (r : Record k), table.get? id = some r →
    ∃ r', later.get? id = some r' ∧ Record.settled k r' = Record.settled k r

/-- A table retains its own records. -/
theorem Retains.refl (table : SymbolTable) : table.Retains table := fun _ _ r hr => ⟨r, hr, rfl⟩

/-- What is retained in what retains the table is retained. -/
theorem Retains.trans (h : later.Retains table) (h' : last.Retains later) : last.Retains table := by
  intro k id r hr
  obtain ⟨r₁, hr₁, hsettled₁⟩ := h _ id r hr
  obtain ⟨r₂, hr₂, hsettled₂⟩ := h' _ id r₁ hr₁
  exact ⟨r₂, hr₂, hsettled₂.trans hsettled₁⟩

/-- An extension retains all records. -/
theorem Extends.retains (h : later.Extends table) : later.Retains table := fun _ _ r hr =>
  ⟨r, h.get? hr, rfl⟩

/-- A record may be completed. -/
theorem retains_modify (table : SymbolTable) (id : SymbolId k) {f : Record k → Record k}
    (hf : ∀ r, Record.settled k (f r) = Record.settled k r) :
    (table.modify id f).Retains table := by
  intro k' id' r hr
  by_cases h : id'.symbol = id.symbol
  · obtain rfl : k' = k := congrArg Symbol.kind h
    obtain rfl := SymbolId.symbol_inj.1 h
    refine ⟨f r, ?_, hf r⟩
    rw [get?_modify_self, hr]
    rfl
  · exact ⟨r, (get?_modify_of_ne table h f).trans hr, rfl⟩

/-- Only the record of a class can be another one. -/
theorem Retains.get? (h : later.Retains table) (hk : k ≠ .cls) {id : SymbolId k} {r : Record k}
    (hr : table.get? id = some r) : later.get? id = some r := by
  obtain ⟨r', hr', hsettled⟩ := h _ id r hr
  rw [Record.settled_of_ne hk, Record.settled_of_ne hk] at hsettled
  rw [hr', hsettled]

/-- A symbol keeps its name. -/
theorem Retains.name? (h : later.Retains table) {id : SymbolId k} {r : Record k}
    (hr : table.get? id = some r) : later.name? id.symbol = Record.name? k r := by
  obtain ⟨r', hr', hsettled⟩ := h _ id r hr
  rw [name?_of_get? hr', ← Record.name?_settled r', hsettled, Record.name?_settled]

end SymbolTable

end Graft
