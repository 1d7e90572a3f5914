import Regions.Declarations

/-!
# Members of types

A value of an aggregate type contains its members by value, and so on down.

- `Declarations.members`: the member paths of a type, the whole value first.
- `Declarations.tracked`: whether values of a type carry references.
- `Declarations.fields`: both together.

An aggregate that contains itself by value has no finite expansion. Both walks look at the
members of an aggregate only if they are not already inside that aggregate, which also makes them
end: `unopened` counts the declared aggregates that a walk is not inside of.
-/

namespace Regions

/-- What copying a value means for the storage that it refers to. -/
inductive Passing
  /-- The value refers to nothing. -/
  | value
  /-- The value is an aggregate with a reference somewhere inside. -/
  | holder
  /-- The value is itself a reference. -/
  | reference
  deriving DecidableEq, Repr

/-- A member of a type: its path from the whole value, its type, and whether values of that
type carry references. -/
structure Field where
  path : Path
  ty : Ty
  tracked : Bool
  deriving DecidableEq, Repr

namespace Declarations

/-- The number of declared aggregates that a walk inside `visiting` may still enter. -/
def unopened (decls : Declarations) (visiting : List Path) : Nat :=
  (decls.aggregates.keys.filter (· ∉ visiting)).length

/-- Entering a declared aggregate leaves fewer to enter. -/
theorem unopened_cons_lt (decls : Declarations) {visiting : List Path} {path : Path}
    {aggregate : Aggregate} (hdecl : decls.aggregates[path]? = some aggregate)
    (hnew : path ∉ visiting) : decls.unopened (path :: visiting) < decls.unopened visiting := by
  have hmem : path ∈ decls.aggregates := by
    simp [Std.ExtTreeMap.mem_iff_isSome_getElem?, hdecl]
  have hsplit : decls.aggregates.keys.filter (· ∉ path :: visiting) =
      (decls.aggregates.keys.filter (· ∉ visiting)).filter (· ≠ path) := by
    simp [List.filter_filter]
  rw [unopened, unopened, hsplit]
  exact List.length_filter_lt_length_iff_exists.2 ⟨path, by simp [hmem, hnew], by simp⟩

/-- The members of a type inside the aggregates `visiting`, each with its path from `base`. -/
def membersWithin (decls : Declarations) (visiting : List Path) (base : Path) (ty : Ty) :
    Except Fault (List (Path × Ty)) :=
  match ty.aggregate? with
  | none => .ok [(base, ty)]
  | some path =>
      match _hdecl : decls.aggregates[path]? with
      | none => .error (.undeclaredAggregate path)
      | some aggregate =>
          if _hnew : path ∈ visiting then
            .ok [(base, ty)]
          else do
            let below ← aggregate.members.mapM fun member =>
              decls.membersWithin (path :: visiting) (base.child member.name) member.ty
            return (base, ty) :: below.flatten
termination_by decls.unopened visiting
decreasing_by exact decls.unopened_cons_lt _hdecl _hnew

/-- All member paths of a type with the type found at each, every aggregate before its members
and these in order. The whole value has the empty path; `void` has no value and no members. -/
def members (decls : Declarations) (ty : Ty) : Except Fault (List (Path × Ty)) :=
  if ty.isVoid then .ok [] else decls.membersWithin [] .whole ty

/-- Whether values of a type inside the aggregates `visiting` carry references. -/
def tracksWithin (decls : Declarations) (visiting : List Path) (ty : Ty) : Except Fault Bool :=
  match ty.aggregate? with
  | none => .ok ty.isReference
  | some path =>
      match _hdecl : decls.aggregates[path]? with
      | none => .error (.undeclaredAggregate path)
      | some aggregate =>
          if _hnew : path ∈ visiting then
            .ok false
          else
            aggregate.members.anyM fun member =>
              decls.tracksWithin (path :: visiting) member.ty
termination_by decls.unopened visiting
decreasing_by exact decls.unopened_cons_lt _hdecl _hnew

/-- Whether values of a type carry references. -/
def tracked (decls : Declarations) (ty : Ty) : Except Fault Bool :=
  decls.tracksWithin [] ty

def passing (decls : Declarations) (ty : Ty) : Except Fault Passing :=
  if ty.isReference then
    .ok .reference
  else do
    return if ← decls.tracked ty then .holder else .value

/-- The members of a type with what the analysis asks of each. -/
def fields (decls : Declarations) (ty : Ty) : Except Fault (List Field) := do
  (← decls.members ty).mapM fun (path, ty) => return { path, ty, tracked := ← decls.tracked ty }

end Declarations

end Regions
