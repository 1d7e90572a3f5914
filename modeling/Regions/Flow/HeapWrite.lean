import Regions.Flow.Step

/-!
# Writes into heap memory

Heap memory outlasts every region of local storage. Data that rests on such a region must
therefore not be written into it.
-/

namespace Regions.Flow

/-- Whether storage is heap memory, or must be the same as heap memory. -/
def isHeapBacked (graph : Outlives) (container : Lifetime) : Bool :=
  container.isHeap || (graph.equivalents container).any Lifetime.isHeap

/-- The violation that a write is, if any. -/
def HeapWrite.violation? (options : Options) (graph : Outlives) (write : HeapWrite) :
    Option Violation :=
  let roots := graph.rootsOf write.stored
  if options.checkHeapStores && isHeapBacked graph write.container && !roots.isEmpty then
    some (.heapStore write.span roots.toList)
  else
    none

/-- Ends the analysis if a write is a violation. -/
def verify (env : Env) (write : HeapWrite) : FlowM Unit := do
  match write.violation? env.options (← get).context.graph with
  | some violation => throw (.violation violation)
  | none => return ()

/-- Takes note of a write, and checks it against what is known at this point. -/
def check (env : Env) (write : HeapWrite) : FlowM Unit := do
  modifyContext fun context => { context with heapWrites := context.heapWrites ++ [write] }
  verify env write

/-- Copies one member of the initializer into new heap memory. -/
def initializeMember (env : Env) (region : Lifetime) (initial : Bundle) (span : Span)
    (field : Field) : FlowM Unit := do
  if let some extent := initial[field.path]? then
    unless extent.value.isNone do
      check env ⟨region, extent.value, span⟩
      store extent.value region field.ty

/-- Allocates heap memory, a region of its own. -/
def allocate (env : Env) (recur : Recur) (id : NodeId) (initializer : Option NodeId) :
    FlowM Unit := do
  let region ← newRoot (env.tempPath "new" id) .heap
  if let some value := initializer then
    recur .value value
    let node ← env.node value
    let initial ← bundleOf value
    let fields ← env.fields node.ty
    fields.forM (initializeMember env region initial node.span)
  record id (.ofList [(.whole, .ofValue region)] _) ∅

end Regions.Flow
