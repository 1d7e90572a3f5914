import Regions.Path
import Regions.Text.Styling

/-!
# Types

The types of the analysed language: three primitive types, pointers, arrays, and types that are
named by a path. A type is its structure; two types are the same when they are built alike.
-/

namespace Regions

/-- What a named type refers to. -/
inductive Nominal
  | struct
  | union
  | function
  deriving DecidableEq, Repr

/-- A type. An array is a reference to any number of elements. -/
inductive Ty
  | void
  | int
  | bool
  | pointer (target : Ty)
  | array (element : Ty)
  | nominal (path : Path) (kind : Nominal)
  deriving DecidableEq, Repr

def Nominal.listing : Nominal → String
  | .struct => "Struct"
  | .union => "Union"
  | .function => "Function"

namespace Ty

def isVoid : Ty → Bool
  | .void => true
  | _ => false

/-- Whether values of the type are references. -/
def isReference : Ty → Bool
  | .pointer _ | .array _ => true
  | _ => false

/-- The path of the struct or union that the type names. -/
def aggregate? : Ty → Option Path
  | .nominal path .struct | .nominal path .union => some path
  | _ => none

/-- The type reached by dereferencing or indexing. -/
def inner? : Ty → Option Ty
  | .pointer target => some target
  | .array element => some element
  | _ => none

/-- The type as it is written; a named type shows the last segment of its path. -/
def text : Ty → String
  | .void => "void"
  | .int => "int"
  | .bool => "bool"
  | .pointer target => target.text ++ "*"
  | .array element => element.text ++ "[]"
  | .nominal path _ => path.segments.getLast?.getD "\x7banonymous\x7d"

/-- The type as messages show it. -/
def styled (ty : Ty) (styling : Styling) : String :=
  styling.paint .yellow ty.text

/-- The type's structure, spelled out constructor by constructor. -/
def listing (ty : Ty) : String :=
  let shape :=
    match ty with
    | .void => "Void"
    | .int => "Int"
    | .bool => "Bool"
    | .pointer target => "Pointer(" ++ target.listing ++ ")"
    | .array element => "Array(" ++ element.listing ++ ")"
    | .nominal path kind => "Nominal(" ++ path.quoted ++ ", " ++ kind.listing ++ ")"
  "Type(" ++ shape ++ ")"

end Ty

end Regions
