import Regions.Fault

/-!
# Declared aggregates and functions

The declarations of a program: structs and unions with their members, and the signatures of
functions. A path can name one aggregate and one function.
-/

namespace Regions

/-- How an aggregate lays out its members. -/
inductive Layout
  | struct
  | union
  deriving DecidableEq, Repr

/-- A name with a type: a member of an aggregate, or a parameter of a function. -/
structure Declarator where
  name : String
  ty : Ty
  writable : Bool := true
  deriving DecidableEq, Repr

structure Aggregate where
  path : Path
  layout : Layout
  members : List Declarator
  deriving DecidableEq, Repr

structure Signature where
  path : Path
  parameters : List Declarator
  returns : Ty
  deriving DecidableEq, Repr

structure Declarations where
  aggregates : PathMap Aggregate
  functions : PathMap Signature

def Aggregate.ty (aggregate : Aggregate) : Ty :=
  match aggregate.layout with
  | .struct => .nominal aggregate.path .struct
  | .union => .nominal aggregate.path .union

def Signature.ty (signature : Signature) : Ty :=
  .nominal signature.path .function

namespace Declarations

def empty : Declarations := ⟨∅, ∅⟩

instance : EmptyCollection Declarations := ⟨empty⟩

def declareAggregate (decls : Declarations) (aggregate : Aggregate) :
    Except Fault Declarations :=
  if aggregate.path ∈ decls.aggregates then
    .error (.duplicateAggregate aggregate.path)
  else
    .ok { decls with aggregates := decls.aggregates.insert aggregate.path aggregate }

def declareFunction (decls : Declarations) (signature : Signature) :
    Except Fault Declarations :=
  if signature.path ∈ decls.functions then
    .error (.duplicateFunction signature.path)
  else
    .ok { decls with functions := decls.functions.insert signature.path signature }

/-- The aggregate that a type names. Types that name none have none; a type that names an
aggregate nobody declared is a fault. -/
def aggregateOf? (decls : Declarations) (ty : Ty) : Except Fault (Option Aggregate) :=
  match ty.aggregate? with
  | none => .ok none
  | some path =>
      match decls.aggregates[path]? with
      | some aggregate => .ok (some aggregate)
      | none => .error (.undeclaredAggregate path)

/-- The type of the first member of that name. -/
def memberType? (decls : Declarations) (ty : Ty) (name : String) : Except Fault (Option Ty) := do
  let some aggregate ← decls.aggregateOf? ty | return none
  return (aggregate.members.find? fun member => member.name = name).map Declarator.ty

end Declarations

end Regions
