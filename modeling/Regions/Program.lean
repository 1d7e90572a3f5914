import Regions.Declarations
import Regions.Node.Arena

/-!
# Programs

A program is a list of top-level declarations, its owners. A function owns the nodes of its
body; a struct or union owns none. `Program.walk` lists all nodes in the order in which they are
evaluated, a node before its operands.
-/

namespace Regions

/-- A parameter inside a function, with the path of its variable. -/
structure Parameter where
  name : String
  path : Path
  ty : Ty
  writable : Bool
  deriving DecidableEq, Repr

structure Function where
  path : Path
  parameters : List Parameter
  returns : Ty
  body : NodeId
  deriving DecidableEq, Repr

inductive OwnerKind
  | function (function : Function)
  | aggregate (layout : Layout) (path : Path)
  deriving DecidableEq, Repr

/-- A top-level declaration with its nodes. -/
structure Owner where
  id : OwnerId
  kind : OwnerKind
  nodes : Arena Node
  deriving DecidableEq, Repr

structure Program where
  owners : Array Owner
  deriving DecidableEq, Repr

namespace Owner

def node (owner : Owner) (id : NodeId) : Except Fault Node :=
  match owner.nodes.get? id with
  | some node => .ok node
  | none => .error (.missingNode owner.id id)

/-- The node of the whole program that `id` stands for. -/
def ref (owner : Owner) (id : NodeId) : NodeRef := ⟨owner.id, id⟩

/-- More than the length of any chain of operands that does not come back to itself. -/
def depth (owner : Owner) : Nat := owner.nodes.size + 1

/-- The nodes at and below `id`, each before its operands; a node that is used twice is listed
twice. A chain of more than `depth` nodes comes back to itself, which is a fault. -/
def walkFrom (owner : Owner) : Nat → NodeId → Except Fault (List NodeId)
  | 0, _ => .error .cyclicBody
  | depth + 1, id => do
      let node ← owner.node id
      let below ← node.expr.children.mapM (owner.walkFrom depth)
      return id :: below.flatten

def walk (owner : Owner) : Except Fault (List NodeId) :=
  match owner.kind with
  | .function function => owner.walkFrom owner.depth function.body
  | .aggregate _ _ => .ok []

end Owner

namespace Program

def empty : Program := ⟨#[]⟩

def owner (program : Program) (id : OwnerId) : Except Fault Owner :=
  match program.owners[id.index]? with
  | some owner => .ok owner
  | none => .error (.missingOwner id)

def node (program : Program) (ref : NodeRef) : Except Fault Node := do
  (← program.owner ref.owner).node ref.node

/-- The nodes of every owner's body, owner by owner. -/
def walk (program : Program) : Except Fault (List (Owner × List NodeId)) :=
  program.owners.toList.mapM fun owner => return (owner, ← owner.walk)

end Program

end Regions
