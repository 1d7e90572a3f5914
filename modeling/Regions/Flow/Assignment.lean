import Regions.Flow.HeapWrite

/-!
# Assignments

Assigning to a local variable starts a new version of it; whatever was made of the old version
keeps referring to that. Assigning through a pointer adds to what the storage holds.
-/

namespace Regions.Flow

/-- The path of the variable, or of the member of one, that a node names without going through
a pointer. -/
def placePath? (owner : Owner) : Nat → NodeId → Except Fault (Option Path)
  | 0, _ => .error .cyclicBody
  | depth + 1, id => do
      match (← owner.node id).expr with
      | .var path => return some path
      | .memberAccess target member =>
          return (← placePath? owner depth target).map fun path => path.child member
      | _ => return none

/-- Starts a new version of the variable in a slot. -/
def rebindLocal (slot assigned : Lifetime) (ty : Ty) : FlowM Unit := do
  let version ← newVersion slot.path
  unify version assigned
  store version slot ty
  adopt version slot

def assignMember (env : Env) (place new : Extent) (span : Span) (field : Field) :
    FlowM Unit := do
  if place.slot.isSlot then
    if field.tracked then
      rebindLocal place.slot new.value field.ty
  else
    unless new.value.isNone do
      check env ⟨place.slot, new.value, span⟩
      store new.value place.value field.ty

def assign (env : Env) (recur : Recur) (id target value : NodeId) : FlowM Unit := do
  recur .place target
  recur .value value
  let places ← bundleOf target
  let assigned ← bundleOf value
  let span := (← env.node value).span
  let fields ← env.fields (← env.typeOf target)
  fields.forM fun field => do
    match places[field.path]?, assigned[field.path]? with
    | some place, some new => assignMember env place new span field
    | _, _ => throw (.fault (.assignmentMember id field.path))
  if let some path ← placePath? env.owner env.owner.depth target then
    capture (← escapingOf value) path
  recordVoid id

end Regions.Flow
