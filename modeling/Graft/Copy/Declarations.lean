/-
# Copying declarations

The first pass of a copy goes through the tree and gives every declaration a
record of its own.  Classes, functions and variables are copied into the target
function under generated names; parameters keep their names.  A call of a
function type's `invoke` operator gives the operator a copy too, the first time
it is met.

A class is copied in two steps (`copyDeclarations_eq`).  Its record is added
before its members are visited, so that its constructors find it, and lists the
copied constructors once they are there.
-/

import Graft.Copy.State
import Graft.Tree.Fold

namespace Graft

namespace CopyJob

open CopyM

variable {σ : Type} (job : CopyJob σ)

/-- Copy parameters for the callable `owner`, each recorded as soon as it is
there. -/
def mintParams (params : List ParamId) (owner : Callable) : CopyM σ (List ParamId) :=
  params.mapM fun (param : ParamId) => do
    let r ← record param
    let ty ← job.substitute r.ty
    let varargElement ← r.varargElement.mapM job.substitute
    let copy ← mint (k := .param)
      { r with owner, derivedFrom := some (r.root param), ty, varargElement }
    register param copy
    return copy

/-- Copy a local function.  The copy has no dispatch receiver. -/
def mintFunction (function : FunctionId) : CopyM σ Unit := do
  let r ← record function
  if !r.typeParams.isEmpty then
    reject (.generic function.symbol r.typeParams.length)
  let name ← job.freshName r.name
  let returnType ← job.substitute r.returnType
  let extensionReceiver ← r.extensionReceiver.mapM job.substitute
  let copy ← mint (k := .fn)
    { r with
      name
      owner := .fn job.target
      kind := .synthesized
      typeParams := []
      params := []
      returnType
      extensionReceiver
      dispatchReceiver := none
      isInline := false }
  setParamList (.fn copy) (← job.mintParams r.params (.fn copy))
  register function copy

/-- Copy a constructor for the copy of its class. -/
def mintConstructor (constructor : ConstructorId) : CopyM σ Unit := do
  let r ← record constructor
  let some cls := (← copies).get? r.cls
    | reject (.constructorOutsideClass constructor)
  if !r.typeParams.isEmpty then
    reject (.generic constructor.symbol r.typeParams.length)
  let returnType ← job.substitute r.returnType
  let dispatchReceiver ← r.dispatchReceiver.mapM job.substitute
  let copy ← mint (k := .ctor)
    { r with cls, typeParams := [], params := [], returnType, dispatchReceiver }
  setParamList (.ctor copy) (← job.mintParams r.params (.ctor copy))
  register constructor copy

/-- Copy the `invoke` operator of a function type.  It keeps its name, kind and
owner. -/
def mintInvoke (invoke : FunctionId) : CopyM σ Unit := do
  let r ← record invoke
  let returnType ← job.substitute r.returnType
  let copy ← mint (k := .fn) { r with returnType, params := [] }
  setParamList (.fn copy) (← job.mintParams r.params (.fn copy))
  register invoke copy

/-- Copy a local variable. -/
def mintVariable (variableId : VariableId) : CopyM σ Unit := do
  let r ← record variableId
  let name ← job.freshName r.name
  let ty ← job.substitute r.ty
  let copy ← mint (k := .var) { r with name, owner := .fn job.target, ty }
  register variableId copy

/-- Copy a class that does not list its constructors yet.  Gives the record that
was copied, and the copy. -/
def openClass (cls : ClassId) : CopyM σ (ClassRecord × ClassId) := do
  let r ← record cls
  let supertypes ← match job.supertypes with
    | .substitute => r.supertypes.mapM job.substitute
    | .top => pure [TypeId.any]
  let name ← job.freshName r.name
  let copy ← mint (k := .cls)
    { r with name, owner := .fn job.target, supertypes, constructors := [], primary := none }
  register cls copy
  return (r, copy)

/-- The copy of a constructor that a class lists. -/
def copiedConstructor (cls : ClassId) (constructor : ConstructorId) : CopyM σ ConstructorId := do
  match (← copies).get? constructor with
  | some copy => return copy
  | none => reject (.constructorNotDeclared cls constructor)

/-- List with the copy of a class the copies of the constructors that its record
`r` lists. -/
def closeClass (cls : ClassId) (r : ClassRecord) (copy : ClassId) : CopyM σ Unit := do
  let constructors ← r.constructors.mapM (copiedConstructor cls)
  let primary ← r.primary.mapM (copiedConstructor cls)
  complete copy fun r => { r with constructors, primary }

/-- Copy what a node other than a class declares or invokes. -/
def mintOwn : Node → CopyM σ Unit
  | .functionDecl _ _ symbol _ => job.mintFunction symbol
  | .constructorDecl _ _ symbol _ => job.mintConstructor symbol
  | .variableDecl _ _ symbol _ => job.mintVariable symbol
  | .call _ _ _ (.fn callee) _ _ _ _ _ => do
    if (← record callee).isTypeInvoke && !(← copies).contains callee then
      job.mintInvoke callee
  | _ => return ()

/-- Copy every declaration of a tree, its root included, each before those
below it. -/
def copyDeclarations : Node → CopyM σ Unit :=
  Node.fold fun n below =>
    match n with
    | .classDecl _ _ symbol _ => do
      let (r, copy) ← job.openClass symbol
      forM below id
      closeClass symbol r copy
    | n => do
      job.mintOwn n
      forM below id

/-- A class is opened before its members are visited and closed after them; any
other node is dealt with before its children. -/
theorem copyDeclarations_eq (n : Node) :
    job.copyDeclarations n =
      (match n with
      | .classDecl _ _ symbol _ => do
        let (r, copy) ← job.openClass symbol
        forM n.children job.copyDeclarations
        closeClass symbol r copy
      | n => do
        job.mintOwn n
        forM n.children job.copyDeclarations) := by
  rw [copyDeclarations, Node.fold_eq, ← copyDeclarations]
  cases n <;> simp only [List.forM_map, id]

end CopyJob

end Graft
