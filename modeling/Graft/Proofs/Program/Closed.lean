/-
# Closed programs and trees

A program is closed if the symbols that its records mention are allocated, the
types that its records hold are in its pool, and every type of the pool comes after
its parts, as interning makes it (`TypePool.Ordered.intern`).  A tree is closed in a
program if the program has all symbols and types of its nodes.  Both can be decided.
-/

import Graft.Proofs.Symbol.Records
import Graft.Proofs.Type.Total
import Graft.Tree.Walk

namespace Graft

/-- The symbol that owns, if it is not the module. -/
def Owner.symbols : Owner → List Symbol
  | .module => []
  | .fn id => [id.symbol]
  | .cls id => [id.symbol]
  | .ctor id => [id.symbol]

namespace Record

/-- The symbols that a record mentions. -/
def symbols : (k : Kind) → Record k → List Symbol
  | .cls, r =>
    r.owner.symbols ++ r.typeParams.map SymbolId.symbol ++
      (r.constructors ++ r.primary.toList).map SymbolId.symbol
  | .fn, r =>
    r.owner.symbols ++ r.typeParams.map SymbolId.symbol ++ r.params.map SymbolId.symbol
  | .ctor, r =>
    r.cls.symbol :: (r.typeParams.map SymbolId.symbol ++ r.params.map SymbolId.symbol)
  | .var, r => r.owner.symbols
  | .param, r => r.owner.symbol :: r.derivedFrom.toList.map SymbolId.symbol
  | .typeParam, r => r.owner.symbols

/-- The types that a record holds. -/
def types : (k : Kind) → Record k → List TypeId
  | .cls, r => r.supertypes
  | .fn, r => r.returnType :: (r.extensionReceiver.toList ++ r.dispatchReceiver.toList)
  | .ctor, r => r.returnType :: r.dispatchReceiver.toList
  | .var, r => [r.ty]
  | .param, r => r.ty :: r.varargElement.toList
  | .typeParam, r => [r.ty]

end Record

namespace Program

variable {program : Program} {k : Kind}

/-- The program has everything that its records and types mention. -/
structure Closed (program : Program) : Prop where
  symbols : ∀ k, ∀ r ∈ (program.symbols.arena k).toList, ∀ s ∈ Record.symbols k r,
    program.symbols.Allocated s
  types : ∀ k, ∀ r ∈ (program.symbols.arena k).toList, ∀ t ∈ Record.types k r,
    program.pool.Has t
  ordered : program.pool.Ordered

instance (program : Program) : Decidable program.Closed :=
  decidable_of_iff
    ((∀ k, ∀ r ∈ (program.symbols.arena k).toList, ∀ s ∈ Record.symbols k r,
        program.symbols.Allocated s) ∧
      (∀ k, ∀ r ∈ (program.symbols.arena k).toList, ∀ t ∈ Record.types k r,
        program.pool.Has t) ∧ program.pool.Ordered)
    ⟨fun ⟨h₁, h₂, h₃⟩ => ⟨h₁, h₂, h₃⟩, fun h => ⟨h.symbols, h.types, h.ordered⟩⟩

/-- A record that is found is in its arena. -/
theorem mem_arena {id : SymbolId k} {r : Record k} (h : program.symbols.get? id = some r) :
    r ∈ (program.symbols.arena k).toList := Array.mem_toList_iff.2 (Array.mem_of_getElem? h)

/-- The symbols in a record of a closed program are allocated. -/
theorem Closed.allocated (h : program.Closed) {id : SymbolId k} {r : Record k}
    (hr : program.symbols.get? id = some r) {s : Symbol} (hs : s ∈ Record.symbols k r) :
    program.symbols.Allocated s := h.symbols k r (mem_arena hr) s hs

/-- The types in a record of a closed program are in the pool. -/
theorem Closed.has (h : program.Closed) {id : SymbolId k} {r : Record k}
    (hr : program.symbols.get? id = some r) {t : TypeId} (ht : t ∈ Record.types k r) :
    program.pool.Has t := h.types k r (mem_arena hr) t ht

end Program

namespace Node

/-- The type arguments that a node carries. -/
def typeArgs? : Node → Option TypeArguments
  | .call _ _ _ _ typeArgs _ _ _ _ => typeArgs
  | .callableRef _ _ _ _ typeArgs _ _ => typeArgs
  | _ => none

/-- The type parameters and types that a node's type arguments pair up. -/
def typeArgEntries (n : Node) : List (TypeParamId × TypeId) :=
  n.typeArgs?.elim [] TypeArguments.entries

/-- Every symbol that a node itself holds: those it mentions and the type
parameters that it gives arguments for. -/
def symbols (n : Node) : List Symbol := n.mentions ++ n.typeArgEntries.map fun e => e.1.symbol

/-- Every type that a node itself holds. -/
def types (n : Node) : List TypeId :=
  (match n with
    | .call _ _ ty .. => [ty]
    | .callableRef _ _ ty .. => [ty]
    | .returnFrom _ ty .. => [ty]
    | .block _ ty _ => [ty]
    | .const _ ty _ => [ty]
    | .when _ ty _ => [ty]
    | .typeOp _ ty _ operandTy _ => [ty, operandTy]
    | _ => []) ++ n.typeArgEntries.map fun e => e.2

/-- The program has all symbols and types that the node itself holds. -/
structure KnownTo (n : Node) (program : Program) : Prop where
  symbols : ∀ s ∈ n.symbols, program.symbols.Allocated s
  types : ∀ t ∈ n.types, program.pool.Has t

instance (n : Node) (program : Program) : Decidable (n.KnownTo program) :=
  decidable_of_iff
    ((∀ s ∈ n.symbols, program.symbols.Allocated s) ∧ ∀ t ∈ n.types, program.pool.Has t)
    ⟨fun ⟨h₁, h₂⟩ => ⟨h₁, h₂⟩, fun h => ⟨h.symbols, h.types⟩⟩

/-- What a known node mentions is allocated. -/
theorem KnownTo.mention {n : Node} {program : Program} (h : n.KnownTo program) {s : Symbol}
    (hs : s ∈ n.mentions) : program.symbols.Allocated s := h.symbols s (List.mem_append_left _ hs)

/-- The program has all symbols and types of the tree. -/
def ClosedIn (root : Node) (program : Program) : Prop :=
  ∀ n ∈ root :: root.descendants, n.KnownTo program

instance (root : Node) (program : Program) : Decidable (root.ClosedIn program) :=
  inferInstanceAs (Decidable (∀ n ∈ root :: root.descendants, n.KnownTo program))

/-- What is below the root of a closed tree is known. -/
theorem ClosedIn.below {root : Node} {program : Program} (h : root.ClosedIn program) {n : Node}
    (hn : n ∈ root.descendants) : n.KnownTo program := h n (.tail _ hn)

end Node

/-! ### A closed program -/

/-- A program with a local class `Point` and its constructor, a local function `inner`, a function
type's `invoke` and a variable, all over the type parameter `T`, inside a function `outer`. -/
def sampleProgram : Program where
  symbols :=
    { classes := #[⟨⟨1⟩, .fn ⟨0⟩, .plain, .final, .bodyLocal, [⟨9⟩], false, [], [⟨0⟩], some ⟨0⟩⟩]
      functions := #[
        ⟨⟨2⟩, .module, .declared, [], [], ⟨5⟩, none, none, .final, .everywhere, false, false⟩,
        ⟨⟨3⟩, .fn ⟨0⟩, .declared, [], [⟨1⟩], ⟨9⟩, none, none, .final, .bodyLocal, false, false⟩,
        ⟨⟨4⟩, .module, .typeInvoke, [], [⟨2⟩], ⟨9⟩, none, none, .final, .everywhere, false, false⟩]
      constructors := #[⟨⟨0⟩, true, [], [⟨0⟩], ⟨9⟩, none, .final, .bodyLocal⟩]
      vars := #[⟨⟨5⟩, .fn ⟨0⟩, ⟨9⟩, true⟩]
      params := #[
        ⟨.ctor ⟨0⟩, none, 0, ⟨5⟩, ⟨9⟩, none, {}⟩,
        ⟨.fn ⟨1⟩, none, 0, ⟨5⟩, ⟨9⟩, none, {}⟩,
        ⟨.fn ⟨2⟩, none, 0, ⟨5⟩, ⟨9⟩, none, {}⟩] }
  pool := (({} : TypePool).typeParam ⟨6⟩).2
  supply := { names := Interner.start.internAll ["Point", "outer", "inner", "invoke", "x", "T"] }

/-- A block that declares the class, the function and the variable and calls the
`invoke`, its argument left to the default value. -/
def sampleTree : Node :=
  .block ⟨0, 40⟩ ⟨5⟩ [
    .classDecl ⟨1, 9⟩ .source ⟨0⟩ [.constructorDecl ⟨2, 8⟩ .source ⟨0⟩ (.block ⟨3, 4⟩ ⟨5⟩ [])],
    .functionDecl ⟨10, 20⟩ .source ⟨1⟩
      (some (.returnFrom ⟨12, 18⟩ ⟨9⟩ (.fn ⟨1⟩) (.getValue ⟨13, 14⟩ .source (.param ⟨1⟩)))),
    .variableDecl ⟨21, 24⟩ .source ⟨0⟩ none,
    .call ⟨25, 39⟩ .source ⟨9⟩ (.fn ⟨2⟩) none none
      (some (.callableRef ⟨26, 30⟩ .source ⟨9⟩ (.fn ⟨0⟩) none none none)) none
      [none, some (.getValue ⟨31, 32⟩ .source (.var ⟨0⟩))]]

/-- `T` becomes `int`. -/
def sampleSubst : ParamSubst := ({} : ParamSubst).insertExact ⟨9⟩ (.ofPrimitive .int)

example : sampleProgram.Closed ∧ sampleTree.ClosedIn sampleProgram ∧
    sampleSubst.Within sampleProgram.pool := by decide +kernel

end Graft
