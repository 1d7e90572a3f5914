import Regions.Flow.Step

/-!
# Variables

Reading a variable gives its current extents. Declaring one gives each member a slot, which is a
region of storage, and unifies the data behind the member with that of the initializer.
-/

namespace Regions.Flow

/-- A variable read as a value; members that carry no references are untracked. -/
def readVariable (env : Env) (id : NodeId) (path : Path) : FlowM Unit := do
  let ty ← env.typeOf id
  let fields ← env.fields ty
  let frame := (← get).frame
  let entries ← fields.mapM fun field => do
    if field.tracked then
      return (field.path, ← frame.get (path ++ field.path))
    else
      return (field.path, .untracked)
  let escaping : PathSet := if ← env.tracked ty then {path} else ∅
  record id (.ofList entries _) escaping

/-- A variable that names its storage. -/
def nameVariable (env : Env) (id : NodeId) (path : Path) : FlowM Unit := do
  let members ← env.declarations.members (← env.typeOf id)
  let frame := (← get).frame
  let entries ← members.mapM fun member => return (member.1, ← frame.get (path ++ member.1))
  record id (.ofList entries _) {path}

/-- Declares one member of a new variable. -/
def declareMember (path : Path) (initializer : Bundle) (field : Field) : FlowM Unit := do
  let memberPath := path ++ field.path
  let slot ← newRoot memberPath .localSlot
  if field.tracked then
    let some initial := initializer[field.path]?
      | throw (.fault (.initializerMember path field.path))
    let value : Lifetime := { path := memberPath, role := .alias, origin := .localValue }
    unify value initial.value
    store value slot field.ty
    declare memberPath ⟨value, slot⟩
  else
    declare memberPath ⟨.none, slot⟩

def declareVariable (env : Env) (recur : Recur) (id : NodeId) (path : Path) (value : NodeId) :
    FlowM Unit := do
  recur .value value
  let initializer ← bundleOf value
  let fields ← env.fields (← env.typeOf value)
  fields.forM (declareMember path initializer)
  capture (← escapingOf value) path
  recordVoid id

/-- Declares one member of a parameter. What the caller passed in is a region of its own. -/
def declareParameterMember (path : Path) (field : Field) : FlowM Unit := do
  let memberPath := path ++ field.path
  let slot ← newRoot memberPath .localSlot
  if field.tracked then
    let value ← newRoot memberPath .localValue
    store value slot field.ty
    declare memberPath ⟨value, slot⟩
  else
    declare memberPath ⟨.none, slot⟩

def declareParameters (env : Env) (parameters : List Parameter) : FlowM Unit :=
  parameters.forM fun parameter => do
    let fields ← env.fields parameter.ty
    fields.forM (declareParameterMember parameter.path)

end Regions.Flow
