/-
# What copies record

A symbol is copied in one of six roles: as a class, function, constructor or variable that
the tree declares, as an `invoke` operator that the tree calls, or as a parameter of a
callable (`CopyRole`).  The role and the record that is copied determine the record of the
copy, given where the copy lives and how symbols and types are renamed
(`CopyRole.record`), up to the name if this is generated.  A record that is copied twice
is the record copied once, under both renamings (`CopyRole.record_record`).
-/

import Graft.Proofs.Copy.Renaming
import Graft.Proofs.Program.Wider

namespace Graft

/-- The role in which a symbol is copied. -/
inductive CopyRole : Kind → Type where
  | cls : CopyRole .cls
  | fn : CopyRole .fn
  | invoke : CopyRole .fn
  | ctor : CopyRole .ctor
  | var : CopyRole .var
  /-- The parameter `self`, listed by the callable `owner`. -/
  | param (owner : Callable) (self : ParamId) : CopyRole .param

/-- On what terms a copy is made: the function that the declarations go to, what becomes of
supertypes, and how symbols and types are renamed. -/
structure CopyTerms where
  target : FunctionId
  supertypes : SupertypeRule
  exchange : Renaming

/-- What becomes of the supertypes of a class. -/
def SupertypeRule.apply (rule : SupertypeRule) (f : TypeId → TypeId) (ts : List TypeId) :
    List TypeId :=
  match rule with
  | .substitute => ts.map f
  | .top => [.any]

namespace CopyRole

variable {k : Kind}

/-- The role of the renamed symbol. -/
def rename (ρ : Renaming) : {k : Kind} → CopyRole k → CopyRole k
  | _, .cls => .cls
  | _, .fn => .fn
  | _, .invoke => .invoke
  | _, .ctor => .ctor
  | _, .var => .var
  | _, .param owner self => .param (ρ.callable owner) (ρ.symbol .param self)

/-- The record of the copy. -/
def record (terms : CopyTerms) (name : Name) : {k : Kind} → CopyRole k → Record k → Record k
  | _, .cls, (r : ClassRecord) =>
    { r with
      name
      owner := .fn terms.target
      supertypes := terms.supertypes.apply terms.exchange.type r.supertypes
      constructors := r.constructors.map (terms.exchange.symbol .ctor)
      primary := r.primary.map (terms.exchange.symbol .ctor) }
  | _, .fn, (r : FunctionRecord) =>
    { r with
      name
      owner := .fn terms.target
      kind := .synthesized
      typeParams := []
      params := r.params.map (terms.exchange.symbol .param)
      returnType := terms.exchange.type r.returnType
      extensionReceiver := r.extensionReceiver.map terms.exchange.type
      dispatchReceiver := none
      isInline := false }
  | _, .invoke, (r : FunctionRecord) =>
    { r with
      params := r.params.map (terms.exchange.symbol .param)
      returnType := terms.exchange.type r.returnType }
  | _, .ctor, (r : ConstructorRecord) =>
    { r with
      cls := terms.exchange.symbol .cls r.cls
      typeParams := []
      params := r.params.map (terms.exchange.symbol .param)
      returnType := terms.exchange.type r.returnType
      dispatchReceiver := r.dispatchReceiver.map terms.exchange.type }
  | _, .var, (r : VariableRecord) =>
    { r with name, owner := .fn terms.target, ty := terms.exchange.type r.ty }
  | _, .param owner self, (r : ParamRecord) =>
    { r with
      owner := terms.exchange.callable owner
      derivedFrom := some (r.root self)
      ty := terms.exchange.type r.ty
      varargElement := r.varargElement.map terms.exchange.type }

/-- The types of a record that are exchanged in its copy. -/
def types (rule : SupertypeRule) : {k : Kind} → CopyRole k → Record k → List TypeId
  | _, .cls, (r : ClassRecord) =>
    match rule with
    | .substitute => r.supertypes
    | .top => []
  | _, .fn, (r : FunctionRecord) => r.returnType :: r.extensionReceiver.toList
  | _, .invoke, (r : FunctionRecord) => [r.returnType]
  | _, .ctor, (r : ConstructorRecord) => r.returnType :: r.dispatchReceiver.toList
  | _, .var, (r : VariableRecord) => [r.ty]
  | _, .param _ _, (r : ParamRecord) => r.ty :: r.varargElement.toList

/-- The symbols that are renamed in the copy of a record. -/
def symbols : {k : Kind} → CopyRole k → Record k → List Symbol
  | _, .cls, (r : ClassRecord) => (r.constructors ++ r.primary.toList).map SymbolId.symbol
  | _, .fn, (r : FunctionRecord) => r.params.map SymbolId.symbol
  | _, .invoke, (r : FunctionRecord) => r.params.map SymbolId.symbol
  | _, .ctor, (r : ConstructorRecord) => r.cls.symbol :: r.params.map SymbolId.symbol
  | _, .var, _ => []
  | _, .param owner _, _ => [owner.symbol]

/-- The parameter that is copied as one. -/
def self? : {k : Kind} → CopyRole k → Option ParamId
  | _, .param _ self => some self
  | _, _ => none

variable {terms terms' : CopyTerms} {name name' : Name} {ρ ρ' : Renaming}

/-- The types that are exchanged are types of the record. -/
theorem types_subset (rule : SupertypeRule) (role : CopyRole k) (r : Record k) :
    role.types rule r ⊆ Record.types k r := by
  cases role with
  | cls => cases rule <;> simp [types, Record.types]
  | fn => simp [types, Record.types]
  | invoke => simp [types, Record.types]
  | ctor | var | param => simp [types, Record.types]

/-- Where supertypes are dropped, less is exchanged. -/
theorem types_mono {rule rule' : SupertypeRule} (h : rule = .top → rule' = .top)
    (role : CopyRole k) (r : Record k) : role.types rule' r ⊆ role.types rule r := by
  cases role with
  | cls =>
    cases rule with
    | substitute => cases rule' <;> simp [types]
    | top => rw [h rfl]; exact List.Subset.refl _
  | fn | invoke | ctor | var | param => exact List.Subset.refl _

/-- What the exchanged types become is exchanged again when the copy is copied. -/
theorem mem_types_rename (terms : CopyTerms) {rule : SupertypeRule}
    (h : terms.supertypes = .top → rule = .top)
    (role : CopyRole k) {r : Record k} {t : TypeId} (ht : t ∈ role.types rule r) :
    terms.exchange.type t ∈
      (role.rename terms.exchange).types rule (role.record terms name r) := by
  suffices hall : (role.types rule r).map terms.exchange.type ⊆
      (role.rename terms.exchange).types rule (role.record terms name r) from
    hall (List.mem_map_of_mem ht)
  cases role with
  | cls =>
    cases rule with
    | top => exact List.nil_subset _
    | substitute =>
      have hrule : terms.supertypes = .substitute := by
        cases hterms : terms.supertypes with
        | substitute => rfl
        | top => cases h hterms
      simp only [types, rename, record, hrule]
      exact List.Subset.refl _
  | fn | invoke | ctor | var | param =>
    simp [types, rename, record, Option.toList_map]

/-- A copy holds types of the record that was copied, what the exchanged ones become, and the
top type. -/
theorem mem_types_of_record (role : CopyRole k) {r : Record k} {t : TypeId}
    (ht : t ∈ Record.types k (role.record terms name r)) :
    t ∈ Record.types k r ∨ (∃ u ∈ role.types terms.supertypes r, terms.exchange.type u = t) ∨
      t = .any := by
  suffices hall : Record.types k (role.record terms name r) ⊆
      Record.types k r ++ (role.types terms.supertypes r).map terms.exchange.type ++ [.any] by
    simpa [or_assoc] using hall ht
  cases role with
  | cls =>
    simp only [Record.types, record, types]
    cases terms.supertypes <;> simp [SupertypeRule.apply]
  | fn | invoke | ctor | var | param =>
    intro u hu
    simp only [Record.types, record, types, Option.toList_map, List.map_cons, List.mem_append,
      List.mem_cons, Option.toList_none, List.append_nil] at hu ⊢
    tauto

/-- **A record that is copied twice is copied once,** under both renamings. -/
theorem record_record (terms terms' : CopyTerms)
    (h : terms.supertypes = .top → terms'.supertypes = .top)
    (role : CopyRole k) (r : Record k) :
    (role.rename terms.exchange).record terms' name' (role.record terms name r) =
      role.record { terms' with exchange := terms.exchange.trans terms'.exchange } name' r := by
  cases role with
  | cls =>
    have hrule : ∀ ts, terms'.supertypes.apply terms'.exchange.type
        (terms.supertypes.apply terms.exchange.type ts) =
          terms'.supertypes.apply (terms.exchange.trans terms'.exchange).type ts := by
      intro ts
      cases hfirst : terms.supertypes with
      | top =>
        rw [h hfirst]
        rfl
      | substitute =>
        cases terms'.supertypes with
        | top => rfl
        | substitute => exact List.map_map ..
    simp only [record, rename, hrule, List.map_map, Option.map_map]
    rfl
  | fn | invoke | ctor =>
    simp only [record, rename, List.map_map, Option.map_map]
    rfl
  | var => rfl
  | param =>
    simp only [record, rename, Option.map_map, Renaming.callable_trans]
    rfl

/-- Only the symbols and types that are renamed matter. -/
theorem record_congr (terms : CopyTerms) {role : CopyRole k} {r : Record k}
    (h : ρ.AgreesOn ρ' (role.symbols r) (role.types terms.supertypes r)) :
    role.record { terms with exchange := ρ } name r =
      role.record { terms with exchange := ρ' } name r := by
  have hmap : ∀ {k' : Kind} (ids : List (SymbolId k')),
      ids.map SymbolId.symbol ⊆ role.symbols r → ids.map (ρ.symbol k') = ids.map (ρ'.symbol k') :=
    fun ids hids => List.map_congr_left fun id hid =>
      h.symbol _ id (hids (List.mem_map_of_mem hid))
  have hoption : ∀ ts : Option TypeId, ts.toList ⊆ role.types terms.supertypes r →
      ts.map ρ.type = ts.map ρ'.type :=
    fun ts hts => Option.map_congr fun t ht => h.type t (hts (Option.mem_toList.2 ht))
  cases role with
  | cls =>
    have hsupertypes : terms.supertypes.apply ρ.type r.supertypes =
        terms.supertypes.apply ρ'.type r.supertypes := by
      have htypes := h.type
      simp only [types] at htypes
      split at htypes
      · rename_i hrule
        rw [hrule]
        exact List.map_congr_left htypes
      · rename_i hrule
        rw [hrule]
        rfl
    have hprimary : r.primary.map (ρ.symbol .ctor) = r.primary.map (ρ'.symbol .ctor) :=
      Option.map_congr fun c hc => h.symbol .ctor c <| List.mem_map_of_mem <|
        List.mem_append_right _ (Option.mem_toList.2 hc)
    simp only [record, hsupertypes, hprimary, hmap r.constructors (by simp [symbols])]
  | fn =>
    simp only [record, hmap r.params (by simp [symbols]), h.type _ (.head _),
      hoption r.extensionReceiver (by simp [types])]
  | invoke => simp only [record, hmap r.params (by simp [symbols]), h.type _ (.head _)]
  | ctor =>
    simp only [record, h.symbol _ _ (.head _), hmap r.params (by simp [symbols]),
      h.type _ (.head _), hoption r.dispatchReceiver (by simp [types])]
  | var => simp only [record, h.type _ (.head _)]
  | param =>
    simp only [record, h.callable (.head _), h.type _ (.head _),
      hoption r.varargElement (by simp [types])]

/-- **A renaming that leaves the program alone renames what the copy exchanged.** -/
theorem rename_record {program : Program} (hρ : ρ.Fixes program) {role : CopyRole k} {r : Record k}
    (hr : Record.KnownTo program k r) (htarget : program.symbols.Allocated terms.target.symbol)
    (htop : program.pool.Has .any)
    (hself : ∀ self ∈ role.self?, program.symbols.Allocated self.symbol) :
    Record.rename ρ k (role.record terms name r) =
      role.record { terms with exchange := terms.exchange.trans ρ } name r := by
  have htargetEq : ρ.symbol .fn terms.target = terms.target := hρ.symbol .fn _ htarget
  have hkept : ∀ ts : Option TypeId, ts.toList ⊆ Record.types k r → ts.map ρ.type = ts := by
    rintro (_ | t) ht
    · rfl
    · exact congrArg some (hρ.type t (hr.types t (ht (.head _))))
  cases role with
  | cls =>
    have hsupertypes : ∀ ts, (terms.supertypes.apply terms.exchange.type ts).map ρ.type =
        terms.supertypes.apply (terms.exchange.trans ρ).type ts := by
      intro ts
      cases terms.supertypes with
      | substitute => exact List.map_map ..
      | top => exact congrArg (fun t => [t]) (hρ.type .any htop)
    simp only [Record.rename, record, Renaming.owner, htargetEq, hsupertypes, List.map_map,
      Option.map_map]
    rfl
  | fn =>
    simp only [Record.rename, record, Renaming.owner, htargetEq, List.map_map, Option.map_map]
    rfl
  | invoke =>
    have howner : ρ.owner r.owner = r.owner := hρ.owner fun s hs => hr.symbols s <|
      List.mem_append_left _ (List.mem_append_left _ hs)
    simp only [Record.rename, record, howner, List.map_map,
      hkept r.extensionReceiver (by simp [Record.types]),
      hkept r.dispatchReceiver (by simp [Record.types])]
    rfl
  | ctor =>
    simp only [Record.rename, record, List.map_map, Option.map_map]
    rfl
  | var =>
    simp only [Record.rename, record, Renaming.owner, htargetEq]
    rfl
  | param owner self =>
    have hroot : ρ.symbol .param (r.root self) = r.root self := by
      refine hρ.symbol .param _ ?_
      rw [ParamRecord.root]
      cases hfrom : r.derivedFrom with
      | none => exact hself self rfl
      | some p =>
        refine hr.symbols _ (.tail _ ?_)
        rw [hfrom]
        exact .head _
    simp only [Record.rename, record, Renaming.callable_trans, Option.map_some, hroot,
      Option.map_map]
    rfl

/-- The name is the only thing that records of copies on the same terms differ in. -/
theorem unnamed_record (role : CopyRole k) (r : Record k) :
    Record.unnamed k (role.record terms name r) = Record.unnamed k (role.record terms name' r) := by
  cases role <;> rfl

end CopyRole

end Graft
