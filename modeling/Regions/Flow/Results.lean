import Regions.Flow.Analysis

/-!
# Results of the analysis

`analyze` runs the analysis over a whole program, function by function, and stops at the first
violation. `ProgramFlow` answers questions about the result: the extents of nodes, the variables
that they hold on to, where their data is stored, and which of them name the same storage.
-/

namespace Regions

/-- Where the data of a value is stored. -/
inductive Storage
  /-- Nowhere in particular: the value refers to nothing. -/
  | value
  /-- In the storage of a function call, of this function or of a caller. -/
  | stack
  /-- In heap memory only. -/
  | heap
  deriving DecidableEq, Repr

structure ProgramFlow where
  /-- The results of each function, by the index of its owner. -/
  owners : Std.ExtTreeMap Nat Flow.OwnerFlow
  context : Flow.Context

namespace ProgramFlow

/-- The result of a node, if it was analysed. -/
def flow? (results : ProgramFlow) (ref : NodeRef) : Option Flow.NodeFlow := do
  let owner ← results.owners[ref.owner.index]?
  let flow? ← owner.get? ref.node
  flow?

def lifetimes (results : ProgramFlow) (ref : NodeRef) : Except Fault Bundle :=
  match results.flow? ref with
  | some flow => .ok flow.bundle
  | none => .error (.lifetimesNotVisited ref)

def escaping (results : ProgramFlow) (ref : NodeRef) : Except Fault PathSet :=
  match results.flow? ref with
  | some flow => .ok flow.escaping
  | none => .error (.escapingNotVisited ref)

def isRoot (results : ProgramFlow) (lifetime : Lifetime) : Bool :=
  results.context.roots.contains lifetime

/-- Where the data of a value with these extents is stored. -/
def storageOf (graph : Outlives) (bundle : Bundle) : Storage :=
  match bundle.whole? with
  | none => .value
  | some whole =>
      if whole.slot.isSlot then .stack
      else if whole.value.isNone then .value
      else if (graph.rootsOf whole.value).isEmpty then .heap
      else .stack

def storage (results : ProgramFlow) (ref : NodeRef) : Except Fault Storage :=
  return storageOf results.context.graph (← results.lifetimes ref)

/-- Whether two values with these extents sit in the same storage. -/
def sameSlot (a b : Bundle) : Bool :=
  match a.whole?, b.whole? with
  | some a, some b => !a.slot.isNone && a.slot = b.slot
  | _, _ => false

/-- Whether two nodes name the same storage. -/
def mayAlias (results : ProgramFlow) (a b : NodeRef) : Except Fault Bool :=
  return sameSlot (← results.lifetimes a) (← results.lifetimes b)

/-- Whether a node has a result that covers exactly the members of its type. -/
def isComplete (results : ProgramFlow) (decls : Declarations) (ref : NodeRef) (ty : Ty) :
    Except Fault Bool := do
  match results.flow? ref with
  | none => return false
  | some flow =>
      let members ← decls.members ty
      return flow.bundle.keys = (Std.ExtTreeSet.ofList (members.map Prod.fst)).toList

/-- The nodes of function bodies whose results are missing or do not fit their types. -/
def incomplete (results : ProgramFlow) (program : Program) (decls : Declarations) :
    Except Fault (List NodeRef) := do
  let walks ← program.walk
  let found ← walks.mapM fun (owner, ids) =>
    ids.filterMapM fun id => do
      let ref := owner.ref id
      let node ← owner.node id
      return if ← results.isComplete decls ref node.ty then none else some ref
  return found.flatten

end ProgramFlow

namespace Flow

/-- Adds the analysis of one owner. Structs and unions have no flow of their own. -/
def analyzeOwner (decls : Declarations) (options : Options) (results : ProgramFlow)
    (owner : Owner) : Except Abort ProgramFlow :=
  match owner.kind with
  | .aggregate _ _ => .ok results
  | .function function => do
      let (context, flow) ← runFunction decls options results.context owner function
      return { owners := results.owners.insert owner.id.index flow, context }

/-- Ends with a fault if `result` is one. -/
def orFault {α : Type} (result : Except Fault α) : Except Abort α :=
  result.mapError Abort.fault

/-- Analyses every function of a program. -/
def analyze (program : Program) (decls : Declarations) (options : Options) :
    Except Abort ProgramFlow := do
  let results ← program.owners.toList.foldlM (analyzeOwner decls options)
    { owners := ∅, context := .initial }
  let incomplete ← orFault (results.incomplete program decls)
  unless incomplete.isEmpty do
    throw (.fault (.incomplete incomplete))
  return results

end Flow

end Regions
