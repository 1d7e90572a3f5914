import Regions.Lifetime

/-!
# Extents and bundles

An extent says how long one piece of data can be reached, and how long the storage that it
sits in lasts. A bundle gives the extents of a value, one for each of its member paths.
-/

namespace Regions

/-- The lifetimes of a value, or of one member of it. -/
structure Extent where
  /-- The data. -/
  value : Lifetime
  /-- The storage that the data sits in. -/
  slot : Lifetime
  deriving DecidableEq, Repr

namespace Extent

/-- Data without references that sits nowhere in particular. -/
def untracked : Extent := ⟨.none, .none⟩

/-- Data that sits nowhere in particular. -/
def ofValue (value : Lifetime) : Extent := ⟨value, .none⟩

def isUntracked (extent : Extent) : Bool :=
  extent.value.isNone && extent.slot.isNone

end Extent

/-- The extents of a value, by member path; the empty path is the value as a whole. -/
abbrev Bundle := PathMap Extent

namespace Bundle

/-- The extent of the value as a whole. -/
def whole? (bundle : Bundle) : Option Extent :=
  bundle[Path.whole]?

/-- The lifetimes of all data in the value that refers to something, in member order. -/
def tracked (bundle : Bundle) : List Lifetime :=
  (bundle.toList.map fun entry => entry.2.value).filter fun l => !l.isNone

/-- The bundle of the part of the value at a member path. -/
def scopedTo (bundle : Bundle) (base : Path) : Bundle :=
  .ofList (bundle.toList.filterMap fun (path, extent) =>
    (path.strip? base).map fun rest => (rest, extent)) _

end Bundle

end Regions
