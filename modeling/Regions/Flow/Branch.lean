import Regions.Flow.Step

/-!
# Blocks and branches

A block passes on what it changed about outer variables. After a branch, a variable that either
side has changed gets a version that holds what each side made of it.
-/

namespace Regions.Flow

def block (env : Env) (recur : Recur) (id : NodeId) (statements : List NodeId) : FlowM Unit := do
  let rebindings ← within Frame.child (statements.forM (recur .value))
  rebindings.toList.forM fun entry => rebind entry.1 entry.2
  match statements.getLast? with
  | some last =>
      if (← env.typeOf id).isVoid then
        recordVoid id
      else
        record id (← bundleOf last) (← escapingOf last)
  | none => recordVoid id

/-- Joins the versions that two branches made of a variable. -/
def mergeVariable (positive negative : PathMap Extent) (path : Path) : FlowM Unit := do
  let before ← (← get).frame.get path
  let merged ← newVersion path
  store (positive[path]?.getD before).value merged
  store (negative[path]?.getD before).value merged
  store merged before.slot
  adopt merged before.slot

/-- Joins the versions of all variables that either branch has changed. -/
def mergeBranches (positive negative : PathMap Extent) : FlowM Unit :=
  (positive ∪ negative).keys.forM (mergeVariable positive negative)

/-- Joins one member of the values of two branches. -/
def joinMember (temp : Path) (positive negative : Bundle) (field : Field) :
    FlowM (Path × Extent) := do
  if field.tracked then
    let joined : Lifetime := { path := temp ++ field.path, role := .temp, origin := .temporary }
    if let some extent := positive[field.path]? then
      store extent.value joined field.ty
    if let some extent := negative[field.path]? then
      store extent.value joined field.ty
    return (field.path, .ofValue joined)
  else
    return (field.path, .untracked)

/-- The value of a node with two branches: it holds what either branch gives. -/
def joinBranches (env : Env) (id positive negative : NodeId) (ty : Ty) : FlowM Unit := do
  let fields ← env.fields ty
  let positiveBundle ← bundleOf positive
  let negativeBundle ← bundleOf negative
  let entries ← fields.mapM (joinMember (env.tempPath "if" id) positiveBundle negativeBundle)
  let escaping ←
    if ← env.tracked ty then
      pure ((← escapingOf positive) ∪ (← escapingOf negative))
    else
      pure ∅
  record id (.ofList entries _) escaping

def cond (env : Env) (recur : Recur) (id condition positive : NodeId)
    (negative? : Option NodeId) : FlowM Unit := do
  recur .value condition
  let positiveChanges ← within Frame.child (recur .value positive)
  let negativeChanges ←
    match negative? with
    | some negative => within Frame.child (recur .value negative)
    | none => pure ∅
  mergeBranches positiveChanges negativeChanges
  let ty ← env.typeOf id
  match negative? with
  | some negative => if ty.isVoid then recordVoid id else joinBranches env id positive negative ty
  | none => recordVoid id

end Regions.Flow
