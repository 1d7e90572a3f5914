import Regions.Flow.Step

/-!
# Addresses and indirection

Taking an address gives a pointer whose data lasts as long as the slot of the place. What is
read through a pointer is a region of its own that the pointer's data holds; what is written
through it is held by everything that the pointer may point at.

A dereference is more precise when the pointer is a local variable that nobody else can change
and that must point at one local variable (`pointee?`): then it stands for that variable itself.
-/

namespace Regions.Flow

inductive Access
  | read
  | write
  deriving DecidableEq, Repr

/-- The slot of the one local variable that a pointer must point at. The pointer has to be a
variable whose own address was not taken, and its data has to be unified with one slot only. -/
def pointee? (env : Env) (state : State) (pointer : Extent) : Option Lifetime := do
  let slot := pointer.slot
  guard (env.options.resolveAliases && slot.isSlot && !state.context.isExposed slot.path)
  let current ← state.frame.lookup? slot.path
  guard (!current.value.isNone)
  match (state.context.graph.equivalents current.value).toList.filter Lifetime.isSlot with
  | [home] => some home
  | _ => none

/-- The bundle of the local variable at `home`, if all of it is still visible. -/
def aliasBundle? (frame : Frame) (home : Path) (access : Access) (fields : List Field) :
    Option Bundle := do
  let entries ← fields.mapM fun field => do
    let extent ← frame.lookup? (home ++ field.path)
    return (field.path, if access = .read ∧ !field.tracked then .untracked else extent)
  return .ofList entries _

/-- The bundle of the local variable that a pointer must point at. -/
def resolve? (env : Env) (pointer : Extent) (ty : Ty) (access : Access) :
    FlowM (Option Bundle) := do
  let state ← get
  match pointee? env state pointer with
  | none => return none
  | some home => return aliasBundle? state.frame home.path access (← env.fields ty)

def readThrough (env : Env) (kind : String) (id target : NodeId) (pointer : Extent) :
    FlowM Unit := do
  let ty ← env.typeOf id
  let escaping ← escapingThrough env ty target
  if let some bundle ← resolve? env pointer ty .read then
    record id bundle escaping
  else
    let temp := env.tempPath kind id
    let fields ← env.fields ty
    let entries ← fields.mapM fun field => do
      if field.tracked then
        let value ← newRoot (temp ++ field.path) .temporary
        store value pointer.value field.ty
        return (field.path, Extent.ofValue value)
      else
        return (field.path, .untracked)
    record id (.ofList entries _) escaping

/-- Names the storage behind a pointer or an array. -/
def writeThrough (env : Env) (kind : String) (id target : NodeId) (pointer : Extent) :
    FlowM Unit := do
  let ty ← env.typeOf id
  let escaping ← escapingOf target
  if let some bundle ← resolve? env pointer ty .write then
    record id bundle escaping
  else
    let temp := env.tempPath kind id
    let support := (← get).context.graph.supportOf pointer.value
    let fields ← env.fields ty
    let entries ← fields.mapM fun field => do
      if field.tracked then
        let written : Lifetime :=
          { path := temp ++ field.path, role := .alias, origin := .temporary }
        support.toList.forM fun holder => store written holder
        store written pointer.value field.ty
        return (field.path, ⟨written, pointer.value⟩)
      else
        return (field.path, (⟨.none, pointer.value⟩ : Extent))
    record id (.ofList entries _) escaping

/-- Reads or names what lies behind a reference. -/
def accessThrough (env : Env) (kind : String) (position : Position) (id target : NodeId)
    (pointer : Extent) : FlowM Unit :=
  match position with
  | .value => readThrough env kind id target pointer
  | .place => writeThrough env kind id target pointer

def dereference (env : Env) (recur : Recur) (position : Position) (id target : NodeId) :
    FlowM Unit := do
  recur .value target
  accessThrough env "deref" position id target (← wholeOf env target)

/-- An element of an array. Which element it is stays unknown, so that the slot of the array
variable plays no part. -/
def index (env : Env) (recur : Recur) (position : Position) (id target subscript : NodeId) :
    FlowM Unit := do
  recur .value target
  recur .value subscript
  accessThrough env "index" position id target (.ofValue (← wholeOf env target).value)

def addressOf (env : Env) (recur : Recur) (id target : NodeId) : FlowM Unit := do
  recur .place target
  let slot := (← wholeOf env target).slot
  if slot.isNone then
    throw (.fault (.noStorage target))
  if slot.isSlot then
    expose slot.path
  record id (.ofList [(.whole, .ofValue slot)] _) (← escapingOf target)

end Regions.Flow
