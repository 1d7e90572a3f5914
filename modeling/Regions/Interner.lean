import Std.Data.ExtTreeMap

/-!
# Interned strings

An interner gives each string a number, the same one whenever the string comes again.
`Interner.intern` works in two steps, a look-up and, when the string is not found, an addition.
Others may add strings between the two, so that the addition looks again before it adds.
-/

namespace Regions

structure Interner where
  /-- The strings, in the order in which they came. -/
  values : Array String
  indices : Std.ExtTreeMap String UInt32

namespace Interner

def empty : Interner := ⟨#[], ∅⟩

def get? (interner : Interner) (index : UInt32) : Option String :=
  interner.values[index.toNat]?

/-- The number of a string that is already there. -/
def indexOf? (interner : Interner) (string : String) : Option UInt32 :=
  interner.indices[string]?

/-- Adds a string unless it is already there; the string's number. -/
def add (interner : Interner) (string : String) : UInt32 × Interner :=
  match interner.indexOf? string with
  | some index => (index, interner)
  | none =>
      let index := interner.values.size.toUInt32
      (index, ⟨interner.values.push string, interner.indices.insert string index⟩)

/-- The number of a string, which is added when it is not there yet. -/
def intern (interner : Interner) (string : String) : UInt32 × Interner :=
  match interner.indexOf? string with
  | some index => (index, interner)
  | none => interner.add string

end Interner

end Regions
