import Regions.Fault
import Regions.Lifetime.Bundle

/-!
# Frames

A frame gives the extents of the variables that can be seen at a point of a function body. It
is a stack of scopes, one for each block around the point. A scope holds the variables that it
declares, and new extents for variables of the scopes around it; the innermost entry counts.
What a nested frame changes about outer variables is not written into the outer scopes: it can
be read off with `Frame.rebindings`, and the outer frame absorbs it or not.
-/

namespace Regions

/-- The entries of one block. -/
structure Scope where
  bindings : PathMap Extent
  /-- The paths that the scope declares itself. -/
  declared : PathSet

structure Frame where
  innermost : Scope
  enclosing : List Scope
  inLoop : Bool

namespace Scope

def empty : Scope := ⟨∅, ∅⟩

end Scope

namespace Frame

/-- The frame of a function before any declaration. -/
def root : Frame := ⟨.empty, [], false⟩

def child (frame : Frame) : Frame :=
  ⟨.empty, frame.innermost :: frame.enclosing, frame.inLoop⟩

def loopBody (frame : Frame) : Frame :=
  { frame.child with inLoop := true }

def scopes (frame : Frame) : List Scope :=
  frame.innermost :: frame.enclosing

/-- The extent of a path, in the innermost scope that has one. -/
def lookup? (frame : Frame) (path : Path) : Option Extent :=
  frame.scopes.findSome? fun scope => scope.bindings[path]?

/-- The extent of a path that has to be there. -/
def get (frame : Frame) (path : Path) : Except Fault Extent :=
  match frame.lookup? path with
  | some extent => .ok extent
  | none => .error (.undeclaredBinding path)

def declare (frame : Frame) (path : Path) (extent : Extent) : Frame :=
  { frame with
    innermost :=
      ⟨frame.innermost.bindings.insert path extent, frame.innermost.declared.insert path⟩ }

/-- Gives a visible path a new extent, in the innermost scope only. -/
def rebind (frame : Frame) (path : Path) (extent : Extent) : Except Fault Frame :=
  match frame.lookup? path with
  | some _ =>
      .ok { frame with
        innermost := { frame.innermost with
          bindings := frame.innermost.bindings.insert path extent } }
  | none => .error (.hiddenBinding path)

def visible (frame : Frame) : PathMap Extent :=
  frame.scopes.foldr (fun scope outer => outer ∪ scope.bindings) ∅

/-- The new extents that the innermost scope has for paths declared outside it. -/
def rebindings (frame : Frame) : PathMap Extent :=
  frame.innermost.bindings.filter fun path _ => path ∉ frame.innermost.declared

/-! ## Lookups after each operation -/

theorem lookup?_eq (frame : Frame) (path : Path) : frame.lookup? path =
      (frame.innermost.bindings[path]?).or
        (frame.enclosing.findSome? fun scope => scope.bindings[path]?) := by
  simp only [lookup?, scopes, List.findSome?_cons]
  cases frame.innermost.bindings[path]? <;> rfl

@[simp] theorem lookup?_child (frame : Frame) (path : Path) :
    frame.child.lookup? path = frame.lookup? path := by
  rw [lookup?_eq]
  simp only [child, Scope.empty, Std.ExtTreeMap.getElem?_empty, Option.none_or]
  rfl

@[simp] theorem lookup?_loopBody (frame : Frame) (path : Path) :
    frame.loopBody.lookup? path = frame.lookup? path :=
  lookup?_child frame path

theorem lookup?_declare (frame : Frame) (path : Path) (extent : Extent) (q : Path) :
    (frame.declare path extent).lookup? q = if q = path then some extent else frame.lookup? q := by
  simp only [lookup?_eq, declare, Std.ExtTreeMap.getElem?_insert, Std.compare_eq_iff_eq,
    @eq_comm _ path q]
  split <;> rfl

theorem lookup?_rebind {frame after : Frame} {path : Path} {extent : Extent}
    (h : frame.rebind path extent = .ok after) (q : Path) :
    after.lookup? q = if q = path then some extent else frame.lookup? q := by
  unfold rebind at h
  split at h
  · cases h
    simp only [lookup?_eq, Std.ExtTreeMap.getElem?_insert, Std.compare_eq_iff_eq, @eq_comm _ path q]
    split <;> rfl
  · cases h

/-- The visible paths are those that can be looked up. -/
theorem getElem?_visible (frame : Frame) (path : Path) :
    frame.visible[path]? = frame.lookup? path := by
  unfold visible lookup?
  induction frame.scopes with
  | nil => simp
  | cons scope scopes ih =>
      simp only [List.foldr_cons, Std.ExtTreeMap.getElem?_union, ih, List.findSome?_cons]
      cases scope.bindings[path]? <;> rfl

end Frame

end Regions
