import Regions.Flow.Assignment

/-!
# Loops

The body of a loop is analysed once, for all iterations. Each variable that the loop may change
gets an entry version before the body, and every version that the body makes of it flows back
into the entry version. Heap writes of the body are checked once more after that, because what a
later iteration writes may have come from an earlier one.
-/

namespace Regions.Flow

/-- What a loop may do to the variables around it, read off its text. -/
structure LoopEffects where
  assigned : List Path
  addressTaken : List Path

/-- The paths that some of the nodes name as `select` says. -/
def namedPaths (owner : Owner) (ids : List NodeId) (select : Expr → Option NodeId) :
    Except Fault (List Path) := do
  let places ← ids.filterMapM fun id => return select (← owner.node id).expr
  places.filterMapM (placePath? owner owner.depth)

/-- The effects of the condition and the body of a loop. -/
def loopEffects (owner : Owner) (condition body : NodeId) : Except Fault LoopEffects := do
  let ids := (← owner.walkFrom owner.depth condition) ++ (← owner.walkFrom owner.depth body)
  let assigned ← namedPaths owner ids fun
    | .assignment target _ => some target
    | _ => none
  let addressTaken ← namedPaths owner ids fun
    | .addressOf target => some target
    | _ => none
  return { assigned, addressTaken }

/-- Whether a loop may change what a variable refers to: it assigns to the variable or to
something around it, or the variable can be changed through a pointer. -/
def LoopEffects.mayChange (effects : LoopEffects) (context : Context) (path : Path) : Bool :=
  context.isExposed path || effects.assigned.any fun base => path.startsWith base

/-- Gives a variable its entry version. -/
def enterLoop (entry : Path × Extent) : FlowM (Path × Lifetime) := do
  let (path, extent) := entry
  let version ← newVersion path
  store extent.value version
  store version extent.slot
  adopt version extent.slot
  return (path, version)

/-- Lets a version that the body made of a variable flow back into its entry version. -/
def flowBack (entries : PathMap Lifetime) (rebound : Path × Lifetime) : FlowM Unit := do
  if let some entry := entries[rebound.1]? then
    store rebound.2 entry

def loop (env : Env) (recur : Recur) (id condition body : NodeId) : FlowM Unit := do
  let effects ← loopEffects env.owner condition body
  effects.addressTaken.forM expose
  let before ← get
  let candidates := before.frame.visible.toList.filter fun (path, extent) =>
    !extent.value.isNone && effects.mayChange before.context path
  let entries ← candidates.mapM enterLoop
  let start := (← get).context
  let _ ← within Frame.loopBody do
    recur .value condition
    recur .value body
  let after := (← get).context
  (after.rebound.drop start.rebound.length).forM (flowBack (.ofList entries _))
  (after.heapWrites.drop start.heapWrites.length).forM (verify env)
  recordVoid id

/-- Leaving an iteration carries no lifetimes, but has to stand in a loop. -/
def leaveIteration (env : Env) (id : NodeId) : FlowM Unit := do
  unless (← get).frame.inLoop do
    throw (.fault (.outsideLoop (← env.node id).expr))
  recordVoid id

end Regions.Flow
