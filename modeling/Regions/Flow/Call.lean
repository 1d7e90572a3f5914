import Regions.Flow.Step

/-!
# Operators, calls and returns

Operators give plain values. A call may store what any argument holds behind any reference that
another argument holds; its own result was checked to last, so that it is a heap region of its
own. A function must not return data that rests on a region of storage which ends.
-/

namespace Regions.Flow

def operator (env : Env) (recur : Recur) (id : NodeId) (operands : List NodeId) :
    FlowM Unit := do
  operands.forM (recur .value)
  record id (← untrackedBundle env (← env.typeOf id)) ∅

/-- What a call knows about an argument. -/
structure Argument where
  /-- The data that the argument refers to. -/
  values : List Lifetime
  /-- Whether something can be stored behind the argument. -/
  tracked : Bool

def argument (env : Env) (id : NodeId) : FlowM Argument := do
  let values := (← bundleOf id).tracked
  return { values, tracked := ← env.tracked (← env.typeOf id) }

/-- Stores all data of one argument behind another. -/
def storeBehind (stored container : Argument) : FlowM Unit :=
  container.values.forM fun holder => stored.values.forM fun value => store value holder

/-- Stores every argument behind every other one that can hold something. -/
def mixArguments (arguments : List Argument) : FlowM Unit :=
  arguments.zipIdx.forM fun (stored, i) =>
    arguments.zipIdx.forM fun (container, j) => do
      if i ≠ j ∧ container.tracked then
        storeBehind stored container

def call (env : Env) (recur : Recur) (id : NodeId) (function : Path) (arguments : List NodeId) :
    FlowM Unit := do
  arguments.forM (recur .value)
  unless function ∈ env.declarations.functions do
    throw (.fault (.noSignature function))
  mixArguments (← arguments.mapM (argument env))
  let fields ← env.fields (← env.typeOf id)
  let path := env.tempPath "call" id
  if fields.any Field.tracked then
    discard (newRoot path .heap)
  let entries := fields.map fun field =>
    (field.path, if field.tracked then Extent.ofValue (.root path .heap) else .untracked)
  record id (.ofList entries _) ∅

/-- The regions that returned data rests on. -/
def returnRoots (graph : Outlives) (returned : Bundle) : LifetimeSet :=
  returned.tracked.foldl (fun roots value => roots ∪ graph.rootsOf value) ∅

/-- All variables that a value holds on to, directly or through others. -/
def heldVariables (captures : Captures) (escaping : PathSet) : PathSet :=
  escaping.toList.foldl (fun held path => held.insert path ∪ captures.capturedBy path) ∅

/-- Checks the value that a function returns. From then on it counts as heap data. -/
def checkReturn (env : Env) (function : Function) : FlowM Unit := do
  let returned ← bundleOf function.body
  let context := (← get).context
  let roots := returnRoots context.graph returned
  unless roots.isEmpty do
    let captured := heldVariables context.captures (← escapingOf function.body)
    let span := (← env.node function.body).span
    throw (.violation (.returnEscape function.path span roots.toList captured.toList))
  returned.tracked.forM fun value => store value .heap

end Regions.Flow
