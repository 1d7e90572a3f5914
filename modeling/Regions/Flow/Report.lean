import Regions.Flow.Results

/-!
# Reports

Listings of a whole result: all lifetimes that it speaks of, the recorded storings between
them, the captures between their variables, and the pairs of nodes that share storage.
-/

namespace Regions
namespace ProgramFlow

/-- Every node of the program with its result, owner by owner. -/
def nodeFlows (results : ProgramFlow) (program : Program) :
    List (NodeRef × Option Flow.NodeFlow) :=
  program.owners.toList.flatMap fun owner =>
    owner.nodes.ids.map fun id => (owner.ref id, results.flow? (owner.ref id))

def bundled (results : ProgramFlow) (program : Program) : LifetimeSet :=
  .ofList ((results.nodeFlows program).flatMap fun (_, flow?) =>
    flow?.toList.flatMap fun flow =>
      flow.bundle.toList.flatMap fun (_, extent) => [extent.value, extent.slot]) _

/-- Every lifetime that the result speaks of: regions, lifetimes of nodes, and all that these
depend on. -/
def known (results : ProgramFlow) (program : Program) : LifetimeSet :=
  let named := results.context.roots ∪ results.bundled program
  let all := named.toList.foldl (fun found l => found ∪ results.context.graph.supportOf l) named
  all.filter fun l => !l.isNone

/-- The storings between lifetimes whose type is known. -/
def storedTypes (results : ProgramFlow) (lifetimes : LifetimeSet) :
    List (Lifetime × Lifetime × Ty) :=
  lifetimes.toList.flatMap fun stored =>
    lifetimes.toList.filterMap fun container =>
      (results.context.graph.storedType? stored container).map fun ty => (stored, container, ty)

/-- What a path captures and what captures it. -/
structure CaptureEntry where
  path : Path
  dependents : PathSet
  captured : PathSet

/-- The captures of the paths of lifetimes, where there are any. -/
def captureTable (results : ProgramFlow) (lifetimes : LifetimeSet) : List CaptureEntry :=
  let paths : PathSet := .ofList (lifetimes.toList.map Lifetime.path) _
  let entries := paths.toList.map fun path =>
    { path
      dependents := results.context.captures.dependentsOf path
      captured := results.context.captures.capturedBy path : CaptureEntry }
  entries.filter fun entry => !entry.dependents.isEmpty || !entry.captured.isEmpty

/-- All pairs of a list, each element with those after it. -/
def orderedPairs {α : Type} : List α → List (α × α)
  | [] => []
  | a :: rest => rest.map (fun b => (a, b)) ++ orderedPairs rest

/-- The pairs of analysed nodes that name the same storage. -/
def aliases (results : ProgramFlow) (program : Program) : List (NodeRef × NodeRef) :=
  let analyzed := (results.nodeFlows program).filterMap fun (ref, flow?) =>
    flow?.map fun flow => (ref, flow.bundle)
  (orderedPairs analyzed).filterMap fun (a, b) =>
    if sameSlot a.2 b.2 then some (a.1, b.1) else none

end ProgramFlow
end Regions
