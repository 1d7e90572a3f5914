import Regions.Captures
import Regions.Declarations.Members
import Regions.Frame
import Regions.Lifetime.Outlives
import Regions.Program
import Regions.Violation

/-!
# State of the flow analysis

The analysis walks a function body in evaluation order. `Context` is what it knows about the
whole program, and grows from function to function; `State` adds what belongs to one function:
the frame at the current point and the results for the nodes analysed so far.

`FlowM` is the monad of analysis steps. A step can end the analysis with a violation of the
program, or with a fault.
-/

namespace Regions.Flow

structure Options where
  /-- Resolve a dereference to the local variable that the pointer must point at. -/
  resolveAliases : Bool := true
  /-- Reject heap memory that holds data which may not last. -/
  checkHeapStores : Bool := true
  deriving DecidableEq, Repr

/-- A write into storage that may be heap memory. -/
structure HeapWrite where
  container : Lifetime
  stored : Lifetime
  /-- The place of the written value. -/
  span : Span
  deriving DecidableEq, Repr

/-- What is known about the program so far. -/
structure Context where
  graph : Outlives
  /-- Every region of storage. -/
  roots : LifetimeSet
  captures : Captures
  /-- The paths of local storage whose address was taken. -/
  exposed : PathSet
  /-- Every new version of a variable, in the order in which they came. -/
  rebound : List (Path × Lifetime)
  /-- Every write into storage that may be heap memory, in order. -/
  heapWrites : List HeapWrite
  nextVersion : Nat

structure NodeFlow where
  bundle : Bundle
  /-- The variables that the node's value may hold on to. -/
  escaping : PathSet

structure State where
  context : Context
  frame : Frame
  recorded : Arena (Option NodeFlow)

/-- Why an analysis ends before its time. -/
inductive Abort
  | fault (fault : Fault)
  | violation (violation : Violation)
  deriving DecidableEq, Repr

/-- A step of the analysis. -/
abbrev FlowM := EStateM Abort State

instance : MonadLift (Except Fault) FlowM where
  monadLift
    | .ok value => pure value
    | .error fault => throw (.fault fault)

/-- What an analysis of a function refers to but does not change. -/
structure Env where
  declarations : Declarations
  options : Options
  owner : Owner
  /-- The path of the function, under which intermediate values are named. -/
  scope : Path

/-- Whether a node stands for its value, or for the storage that it names. -/
inductive Position
  | value
  | place
  deriving DecidableEq, Repr

/-- How a rule has the operands of its node analysed. -/
abbrev Recur := Position → NodeId → FlowM Unit

namespace Context

/-- Before any function: only the heap is known. -/
def initial : Context where
  graph := ∅
  roots := {Lifetime.heap}
  captures := ∅
  exposed := ∅
  rebound := []
  heapWrites := []
  nextVersion := 1

/-- Whether the address of the storage at a path, or of storage around it, was taken. -/
def isExposed (context : Context) (path : Path) : Bool :=
  path.ancestry.any fun above => context.exposed.contains above

end Context

namespace Env

def node (env : Env) (id : NodeId) : Except Fault Node := env.owner.node id

def typeOf (env : Env) (id : NodeId) : Except Fault Ty := return (← env.node id).ty

def fields (env : Env) (ty : Ty) : Except Fault (List Field) := env.declarations.fields ty

def tracked (env : Env) (ty : Ty) : Except Fault Bool := env.declarations.tracked ty

/-- The path of the intermediate value of a node. -/
def tempPath (env : Env) (kind : String) (id : NodeId) : Path :=
  env.scope.child ("$" ++ kind ++ "_" ++ toString id.index)

end Env

namespace State

/-- At the start of a function with `size` nodes. -/
def start (context : Context) (size : Nat) : State :=
  ⟨context, .root, .replicate size none⟩

end State

end Regions.Flow
