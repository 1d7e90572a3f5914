import Regions.Flow.State

/-!
# Elementary steps

The steps out of which the rules of the analysis are made: adding regions, obligations and
captures, changing the frame, and recording and reading the results of nodes.
-/

namespace Regions.Flow

/-! ## Regions, obligations and captures -/

/-- Changes what is known about the program. -/
def modifyContext (f : Context → Context) : FlowM Unit :=
  modify fun state => { state with context := f state.context }

def newRoot (path : Path) (origin : Origin) : FlowM Lifetime := do
  let root := Lifetime.root path origin
  modifyContext fun context => { context with roots := context.roots.insert root }
  return root

/-- Records that data is stored in a container. -/
def store (stored container : Lifetime) (ty? : Option Ty := none) : FlowM Unit :=
  modifyContext fun context => { context with graph := context.graph.store stored container ty? }

/-- Records that two lifetimes stand for the same data. -/
def unify (a b : Lifetime) : FlowM Unit :=
  modifyContext fun context => { context with graph := context.graph.unify a b }

/-- Records that the address of local storage was taken. -/
def expose (path : Path) : FlowM Unit :=
  modifyContext fun context => { context with exposed := context.exposed.insert path }

/-- Records that a variable holds on to others. -/
def capture (captured : PathSet) (holder : Path) : FlowM Unit :=
  modifyContext fun context =>
    { context with
      captures := captured.toList.foldl (fun captures path => captures.record path holder)
        context.captures }

/-! ## The frame -/

def declare (path : Path) (extent : Extent) : FlowM Unit :=
  modify fun state => { state with frame := state.frame.declare path extent }

def rebind (path : Path) (extent : Extent) : FlowM Unit := do
  let frame ← (← get).frame.rebind path extent
  modify fun state => { state with frame }

/-- The lifetime of a new version of the data behind a variable. -/
def newVersion (path : Path) : FlowM Lifetime := do
  let version := (← get).context.nextVersion
  modifyContext fun context => { context with nextVersion := context.nextVersion + 1 }
  return { path, version, role := .alias, origin := .localValue }

/-- Makes a version of a variable the current one. -/
def adopt (version : Lifetime) (slot : Lifetime) : FlowM Unit := do
  rebind version.path ⟨version, slot⟩
  modifyContext fun context =>
    { context with rebound := context.rebound ++ [(version.path, version)] }

/-- Runs steps in a frame inside the current one, and leaves it again. The result is what the
inner frame has changed about outer variables; the current frame keeps its own extents. -/
def within (enter : Frame → Frame) (steps : FlowM Unit) : FlowM (PathMap Extent) := do
  let outer := (← get).frame
  modify fun state => { state with frame := enter outer }
  steps
  let inner := (← get).frame
  modify fun state => { state with frame := outer }
  return inner.rebindings

/-! ## Results of nodes -/

/-- The result of a node, if it was analysed. -/
def flowOf? (id : NodeId) : FlowM (Option NodeFlow) := do
  (← get).recorded.get id

/-- The extents of an analysed node. -/
def bundleOf (id : NodeId) : FlowM Bundle := do
  match ← flowOf? id with
  | some flow => return flow.bundle
  | none => throw (.fault (.lifetimesTooEarly id))

/-- The variables that the value of an analysed node may hold on to. -/
def escapingOf (id : NodeId) : FlowM PathSet := do
  match ← flowOf? id with
  | some flow => return flow.escaping
  | none => throw (.fault (.escapingTooEarly id))

/-- The extent of the whole value of an analysed node. -/
def wholeOf (env : Env) (id : NodeId) : FlowM Extent := do
  match (← bundleOf id).whole? with
  | some extent => return extent
  | none => throw (.fault (.noWholeValue id (← env.typeOf id)))

def record (id : NodeId) (bundle : Bundle) (escaping : PathSet) : FlowM Unit := do
  if (← flowOf? id).isSome then
    throw (.fault (.recordedTwice id))
  let recorded ← (← get).recorded.set id (some ⟨bundle, escaping⟩)
  modify fun state => { state with recorded }

/-- Records a node without a value. -/
def recordVoid (id : NodeId) : FlowM Unit := record id ∅ ∅

/-- The variables that a value of the type holds on to: those of its source, or none when the
type carries no references. -/
def escapingThrough (env : Env) (ty : Ty) (source : NodeId) : FlowM PathSet := do
  if ← env.tracked ty then escapingOf source else return ∅

/-- The bundle of a value without references. -/
def untrackedBundle (env : Env) (ty : Ty) : Except Fault Bundle := do
  let members ← env.declarations.members ty
  return .ofList (members.map fun member => (member.1, Extent.untracked)) _

end Regions.Flow
