/-
# Which trees can be copied, node by node

The first pass meets the nodes below the root in preorder.  `Node.brings` are the
symbols that a node makes the pass copy, the parameters of a callable before the
callable itself.  What a node needs of the nodes met before it is `Node.Admits`; what a
class needs of the nodes met until its members are done is `Node.Closes`.  A list of
trees is lawful if all its nodes get what they need, and this can be checked along the
walk (`Node.lawful_append`, `Node.lawful_singleton`).
-/

import Graft.Proofs.Copy.Minting
import Graft.Proofs.Tree.Preorder

namespace Graft

namespace SymbolTable

/-- Whether a function is the `invoke` operator of a function type. -/
def isInvoke (table : SymbolTable) (id : FunctionId) : Bool :=
  (table.get? id).any FunctionRecord.isTypeInvoke

/-- An operator is a function whose record says so. -/
theorem isInvoke_of_get? {table : SymbolTable} {f : FunctionId} {r : FunctionRecord}
    (h : table.get? f = some r) : table.isInvoke f = r.isTypeInvoke := by
  rw [isInvoke, h]
  rfl

end SymbolTable

namespace Node

/-- The callable that a node declares. -/
def callable? : Node → Option Callable
  | .functionDecl _ _ symbol _ => some (.fn symbol)
  | .constructorDecl _ _ symbol _ => some (.ctor symbol)
  | _ => none

/-- The parameters of the callable that a node declares. -/
def declaredParams (table : SymbolTable) (n : Node) : List ParamId :=
  n.callable?.elim [] table.paramsOf

/-- The `invoke` operator of a function type that a node calls. -/
def invoked? (table : SymbolTable) : Node → Option FunctionId
  | .call _ _ _ (.fn callee) .. => if table.isInvoke callee then some callee else none
  | _ => none

/-- The symbols that a node makes a copy give copies to. -/
def brings (table : SymbolTable) : Node → List Symbol
  | .classDecl _ _ symbol _ => [symbol.symbol]
  | .functionDecl _ _ symbol _ => table.withParams (.fn symbol)
  | .constructorDecl _ _ symbol _ => table.withParams (.ctor symbol)
  | .variableDecl _ _ symbol _ => [symbol.symbol]
  | .call _ _ _ (.fn callee) .. =>
    if table.isInvoke callee then table.withParams (.fn callee) else []
  | _ => []

/-- All that some nodes bring. -/
def bringsAll (table : SymbolTable) (met : List Node) : List Symbol := met.flatMap (brings table)

/-- The symbols are different, and no node that was met brings one of them. -/
def Unmet (table : SymbolTable) (met : List Node) (keys : List Symbol) : Prop :=
  keys.Nodup ∧ ∀ a ∈ keys, a ∉ bringsAll table met

/-- What a node needs of the nodes met before it. -/
def Admits (table : SymbolTable) (met : List Node) : Node → Prop
  | .classDecl _ _ symbol _ => Unmet table met [symbol.symbol]
  | .functionDecl _ _ symbol _ =>
    table.typeParamsOf (.fn symbol) = [] ∧ Unmet table met (table.withParams (.fn symbol))
  | .constructorDecl _ _ symbol _ =>
    (∀ r, table.get? symbol = some r → r.cls.symbol ∈ bringsAll table met) ∧
      table.typeParamsOf (.ctor symbol) = [] ∧ Unmet table met (table.withParams (.ctor symbol))
  | .variableDecl _ _ symbol _ => Unmet table met [symbol.symbol]
  | .call _ _ _ (.fn callee) .. =>
    table.isInvoke callee → callee.symbol ∉ bringsAll table met →
      Unmet table met (table.withParams (.fn callee))
  | _ => True

/-- What a class needs of the nodes met until its members are done. -/
def Closes (table : SymbolTable) (met : List Node) : Node → Prop
  | .classDecl _ _ symbol _ => ∀ r, table.get? symbol = some r →
    ∀ c ∈ r.constructors ++ r.primary.toList, c.symbol ∈ bringsAll table met
  | _ => True

/-- After `met`, every node of the trees gets what it needs. -/
def Lawful (table : SymbolTable) (met ns : List Node) : Prop :=
  ∀ a n b, preorder ns = a ++ n :: (n.descendants ++ b) →
    Admits table (met ++ a) n ∧ Closes table (met ++ a ++ n :: n.descendants) n

variable {table : SymbolTable} {met : List Node}

/-- The parameters a node declares are those of the callable it declares. -/
theorem mem_declaredParams {n : Node} {p : ParamId} :
    p ∈ n.declaredParams table ↔
      ∃ callable, n.callable? = some callable ∧ p ∈ table.paramsOf callable := by
  rw [declaredParams]
  cases n.callable? <;> simp

/-- A callable that a node declares is what it declares. -/
theorem declared?_of_callable? {n : Node} {callable : Callable}
    (h : n.callable? = some callable) : n.declared? = some callable.symbol := by
  cases n <;> cases h <;> rfl

/-- A node brings what it declares and the `invoke` operator that it calls, and their
parameters. -/
theorem mem_brings {n : Node} {a : Symbol} :
    a ∈ n.brings table ↔
      n.declared? = some a ∨ (∃ f, n.invoked? table = some f ∧ a = f.symbol) ∨
        (∃ p ∈ n.declaredParams table, a = p.symbol) ∨
        ∃ f, n.invoked? table = some f ∧ ∃ p ∈ table.paramsOf (.fn f), a = p.symbol := by
  cases n with
  | functionDecl | constructorDecl =>
    simp [brings, declared?, invoked?, declaredParams, callable?, SymbolTable.mem_withParams_iff,
      Callable.symbol, eq_comm, or_comm]
  | classDecl | variableDecl =>
    simp [brings, declared?, invoked?, declaredParams, callable?, eq_comm]
  | call span origin ty callee =>
    cases callee with
    | ctor callee => simp [brings, declared?, invoked?, declaredParams, callable?]
    | fn callee =>
      by_cases hi : table.isInvoke callee = true <;>
        simp [brings, declared?, invoked?, declaredParams, callable?, hi,
          SymbolTable.mem_withParams_iff, Callable.symbol, or_comm]
  | callableRef | returnFrom | getValue | setVariable | block | const | «when» | whileLoop
  | typeOp => simp [brings, declared?, invoked?, declaredParams, callable?]

/-- No trees are lawful. -/
theorem lawful_nil : Lawful table met [] := by
  intro a n b h
  cases a <;> cases h

/-- Trees after one another are lawful one after the other. -/
theorem lawful_append {ns ms : List Node} :
    Lawful table met (ns ++ ms) ↔
      Lawful table met ns ∧ Lawful table (met ++ preorder ns) ms := by
  constructor
  · intro h
    constructor
    · intro a n b hns
      exact h a n (b ++ preorder ms) (by rw [preorder_append, hns]; simp)
    · intro a n b hms
      have hn := h (preorder ns ++ a) n b (by rw [preorder_append, hms]; simp)
      rwa [← List.append_assoc] at hn
  · rintro ⟨hns, hms⟩ a n b h
    rcases split_preorder h with ⟨b', hin⟩ | ⟨a', rfl, hin⟩
    · exact hns a n b' hin
    · rw [← List.append_assoc]
      exact hms a' n b hin

/-- A tree is lawful if its root gets what it needs, before and after what is below it,
and what is below it is lawful. -/
theorem lawful_singleton {n : Node} :
    Lawful table met [n] ↔ Admits table met n ∧ Lawful table (met ++ [n]) n.children ∧
      Closes table (met ++ n :: n.descendants) n := by
  have hroot : preorder [n] = [] ++ n :: (n.descendants ++ []) := by
    rw [preorder_singleton, List.append_nil, List.nil_append]
  constructor
  · intro h
    obtain ⟨hadmits, hcloses⟩ := h [] n [] hroot
    rw [List.append_nil] at hadmits hcloses
    refine ⟨hadmits, fun a m b hm => ?_, hcloses⟩
    have hm' := h (n :: a) m b (by rw [preorder_singleton, ← preorder_children, hm]; rfl)
    rwa [List.append_cons] at hm'
  · rintro ⟨hadmits, hchildren, hcloses⟩ a m b h
    rw [preorder_singleton] at h
    cases a with
    | nil =>
      obtain ⟨rfl, -⟩ := List.cons.inj h
      rw [List.append_nil]
      exact ⟨hadmits, hcloses⟩
    | cons m' a =>
      obtain ⟨rfl, hbelow⟩ := List.cons.inj h
      rw [List.append_cons]
      exact hchildren a m b (n.preorder_children.trans hbelow)

end Node

end Graft
