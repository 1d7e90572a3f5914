import Regions.Flow.Step

/-!
# Struct literals and members

A struct literal holds the data of all its fields. The bundle of a member is the part of the
whole value's bundle below the member's name.
-/

namespace Regions.Flow

/-- Puts the value of a field into a struct literal; the entries of the literal's bundle. -/
def insertField (env : Env) (whole : Lifetime) (name : String) (value : NodeId) :
    FlowM (List (Path × Extent)) := do
  let ty ← env.typeOf value
  let bundle ← bundleOf value
  bundle.tracked.forM fun data => store data whole ty
  return bundle.toList.map fun (path, extent) =>
    (Path.single name ++ path, Extent.ofValue extent.value)

/-- The extent of a member that no field of the literal gives: it shares the storage of the
fields that are given. -/
def defaultExtent (whole : Lifetime) (field : Field) : Extent :=
  if field.path = .whole ∨ field.tracked then .ofValue whole else .untracked

def structLiteral (env : Env) (recur : Recur) (id : NodeId) (fields : List (String × NodeId)) :
    FlowM Unit := do
  fields.forM fun field => recur .value field.2
  let ty ← env.typeOf id
  if ← env.tracked ty then
    let whole : Lifetime :=
      { path := env.tempPath "struct" id, role := .temp, origin := .temporary }
    let entries ← fields.mapM fun field => insertField env whole field.1 field.2
    let escaping ← fields.mapM fun field => escapingOf field.2
    let given : Bundle := .ofList entries.flatten _
    let members ← env.fields ty
    record id (members.foldl (fun bundle field =>
        bundle.insertIfNew field.path (defaultExtent whole field)) given)
      (escaping.foldl (· ∪ ·) ∅)
  else
    record id (← untrackedBundle env ty) ∅

/-- The part of a value's bundle that belongs to one of its members. -/
def memberBundle (env : Env) (id target : NodeId) (member : String) : FlowM Bundle := do
  let bundle := (← bundleOf target).scopedTo (.single member)
  if bundle.whole?.isNone then
    throw (.fault (.noMemberLifetimes member target))
  let members ← env.declarations.members (← env.typeOf id)
  unless bundle.size = members.length do
    throw (.fault (.memberCount id))
  return bundle

/-- A member read as a value. -/
def readMember (env : Env) (recur : Recur) (id target : NodeId) (member : String) :
    FlowM Unit := do
  recur .value target
  let escaping ← escapingThrough env (← env.typeOf id) target
  record id (← memberBundle env id target member) escaping

/-- A member that names its storage. -/
def nameMember (env : Env) (recur : Recur) (id target : NodeId) (member : String) :
    FlowM Unit := do
  recur .place target
  let escaping ← escapingOf target
  record id (← memberBundle env id target member) escaping

end Regions.Flow
