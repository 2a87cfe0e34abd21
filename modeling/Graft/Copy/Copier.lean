/-
# Copying a tree into a function

A copy gives every declaration below the root of a tree a new symbol in the
target function and points the tree at the new symbols.  The root keeps its own
fields, and the tree that is copied and every record that was there before stay
as they are.
-/

import Graft.Copy.Dangling
import Graft.Copy.Declarations
import Graft.Copy.References
import Graft.Tree.Equality

namespace Graft

/-- What a copy can be asked to do differently. -/
structure CopyOptions where
  supertypes : SupertypeRule := .substitute
  /-- Check the copy for dangling references before it is given out. -/
  checked : Bool := true
deriving DecidableEq, Repr

/-- How trees are copied into a target function. -/
structure Copier (σ : Type) where
  target : FunctionId
  substitutor : Option (Substitutor σ) := none
  options : CopyOptions := {}

/-- A copied tree, and which symbol in it is the copy of which. -/
structure Copied where
  root : Node
  map : CopyMap
deriving DecidableEq

namespace Copier

variable {σ : Type}

/-- The actions of a copy.  `inlined` labels the generated names. -/
def actions (copier : Copier σ) (root : Node) (inlined : String) : CopyM σ Copied := do
  let target ← CopyM.record copier.target
  let job : CopyJob σ :=
    { target := copier.target
      scheme := ⟨(← get).program.lookup target.name, inlined⟩
      substitutor := copier.substitutor
      supertypes := copier.options.supertypes }
  forM root.children job.copyDeclarations
  let copy ← job.redirectReferences root
  let map ← CopyM.copies
  if copier.options.checked then
    if let .error e := map.check copy then CopyM.reject e
  return ⟨copy, map⟩

/-- Copy a tree into the target function.  What was added to the program before
a failure stays there. -/
def copy (copier : Copier σ) (root : Node) (inlined : String) :
    EStateM CopyFault (Program × σ) Copied := fun (program, memory) =>
  match copier.actions root inlined { program, memory } with
  | .ok copied s => .ok copied (s.program, s.memory)
  | .error e s => .error e (s.program, s.memory)

/-- Replace a tree by its copy.  The tree stays as it is if the copy fails. -/
def replace (copier : Copier σ) (inlined : String) :
    EStateM CopyFault (Node × Program × σ) CopyMap := fun (root, s) =>
  match copier.copy root inlined s with
  | .ok copied s => .ok copied.map (copied.root, s)
  | .error e s => .error e (root, s)

end Copier

end Graft
