import Regions.Flow.Results
import Regions.Proofs.Bundles

/-!
# Versions counted from another start

The number of a version says how many versions were given out before it. When an analysis starts
with `n` more of them given out, its results are the same but for these numbers: `renumber n` adds
`n` to every version but the first of a variable, which has the number zero wherever it stands.

Renumbering goes through all that results are made of: lifetimes, extents, bundles, frames, and the
results of nodes.
-/

namespace Regions

open Std

variable {n : Nat}

/-! ## Lifetimes and extents -/

namespace Lifetime

/-- The lifetime when `n` more versions were given out before. -/
def renumber (n : Nat) (l : Lifetime) : Lifetime :=
  if l.version = 0 then l else { l with version := l.version + n }

variable {l k : Lifetime}

theorem renumber_of_version_eq_zero (h : l.version = 0) : l.renumber n = l := if_pos h

@[simp] theorem renumber_zero : renumber 0 = id := by
  funext l
  unfold renumber
  split <;> rfl

@[simp] theorem path_renumber (l : Lifetime) : (l.renumber n).path = l.path := by
  unfold renumber
  split <;> rfl

@[simp] theorem role_renumber (l : Lifetime) : (l.renumber n).role = l.role := by
  unfold renumber
  split <;> rfl

@[simp] theorem origin_renumber (l : Lifetime) : (l.renumber n).origin = l.origin := by
  unfold renumber
  split <;> rfl

@[simp] theorem isNone_renumber (l : Lifetime) : (l.renumber n).isNone = l.isNone := by
  simp [isNone]

@[simp] theorem isHeap_renumber (l : Lifetime) : (l.renumber n).isHeap = l.isHeap := by
  simp [isHeap]

@[simp] theorem isRoot_renumber (l : Lifetime) : (l.renumber n).isRoot = l.isRoot := by
  simp [isRoot]

@[simp] theorem isSlot_renumber (l : Lifetime) : (l.renumber n).isSlot = l.isSlot := by
  simp [isSlot]

@[simp] theorem renumber_heap : heap.renumber n = heap := rfl

/-- Lifetimes that differ are still different when they are renumbered. -/
@[simp] theorem renumber_inj : l.renumber n = k.renumber n ↔ l = k := by
  obtain ⟨path, version, role, origin⟩ := l
  obtain ⟨path', version', role', origin'⟩ := k
  unfold renumber
  constructor
  · intro h
    dsimp only at h
    split at h <;> split at h <;> grind
  · intro h
    cases h
    rfl

end Lifetime

namespace Extent

def renumber (n : Nat) (extent : Extent) : Extent :=
  ⟨extent.value.renumber n, extent.slot.renumber n⟩

@[simp] theorem value_renumber (extent : Extent) :
    (extent.renumber n).value = extent.value.renumber n := rfl

@[simp] theorem slot_renumber (extent : Extent) :
    (extent.renumber n).slot = extent.slot.renumber n := rfl

@[simp] theorem renumber_zero : renumber 0 = id := by
  funext extent
  simp [renumber]

end Extent

/-! ## Bundles -/

theorem PathMap.map_insertMany {α β : Type} {f : α → β} (map : PathMap α)
    (entries : List (Path × α)) : (map.insertMany entries).map (fun _ a => f a) =
      (map.map fun _ a => f a).insertMany (entries.map fun entry => (entry.1, f entry.2)) := by
  induction entries generalizing map with
  | nil => simp
  | cons entry entries ih =>
    have hinsert : (map.insert entry.1 entry.2).map (fun _ a => f a) =
        (map.map fun _ a => f a).insert entry.1 (f entry.2) := by
      refine ExtTreeMap.ext_getElem? fun path => ?_
      simp only [ExtTreeMap.getElem?_map, ExtTreeMap.getElem?_insert]
      split <;> rfl
    rw [List.map_cons, ExtTreeMap.insertMany_cons, ExtTreeMap.insertMany_cons, ih, hinsert]

theorem PathMap.map_ofList {α β : Type} {f : α → β} (entries : List (Path × α)) :
    (ExtTreeMap.ofList entries compare).map (fun _ a => f a) =
      .ofList (entries.map fun entry => (entry.1, f entry.2)) compare := by
  have hempty : (∅ : PathMap α).map (fun _ a => f a) = ∅ := by
    refine ExtTreeMap.ext_getElem? fun path => ?_
    simp
  simp only [ExtTreeMap.ofList_eq_insertMany_empty, map_insertMany, hempty]

namespace Bundle

def renumber (n : Nat) (bundle : Bundle) : Bundle :=
  bundle.map fun _ extent => extent.renumber n

@[simp] theorem getElem?_renumber (bundle : Bundle) (path : Path) :
    (renumber n bundle)[path]? = bundle[path]?.map (Extent.renumber n) :=
  ExtTreeMap.getElem?_map

@[simp] theorem renumber_zero : renumber 0 = id :=
  funext fun bundle => ExtTreeMap.ext_getElem? fun path => by simp

@[simp] theorem whole?_renumber (bundle : Bundle) :
    (renumber n bundle).whole? = bundle.whole?.map (Extent.renumber n) :=
  getElem?_renumber bundle .whole

@[simp] theorem toList_renumber (bundle : Bundle) :
    (renumber n bundle).toList = bundle.toList.map fun entry => (entry.1, entry.2.renumber n) :=
  ExtTreeMap.toList_map

@[simp] theorem size_renumber (bundle : Bundle) : (renumber n bundle).size = bundle.size := by
  rw [← ExtTreeMap.length_toList, toList_renumber, List.length_map, ExtTreeMap.length_toList]

@[simp] theorem keys_renumber (bundle : Bundle) : (renumber n bundle).keys = bundle.keys :=
  ExtTreeMap.keys_map

@[simp] theorem renumber_empty : renumber n ∅ = ∅ := by
  refine ExtTreeMap.ext_getElem? fun path => ?_
  simp

theorem renumber_insert (bundle : Bundle) (path : Path) (extent : Extent) :
    renumber n (bundle.insert path extent) = (renumber n bundle).insert path
    (extent.renumber n) := by
  refine ExtTreeMap.ext_getElem? fun q => ?_
  simp only [getElem?_renumber, ExtTreeMap.getElem?_insert]
  split <;> rfl

theorem renumber_insertIfNew (bundle : Bundle) (path : Path) (extent : Extent) :
    renumber n (bundle.insertIfNew path extent) =
      (renumber n bundle).insertIfNew path (extent.renumber n) := by
  have hmem : path ∈ renumber n bundle ↔ path ∈ bundle := ExtTreeMap.mem_map
  refine ExtTreeMap.ext_getElem? fun q => ?_
  simp only [getElem?_renumber, ExtTreeMap.getElem?_insertIfNew, hmem]
  split <;> rfl

theorem renumber_union (bundle other : Bundle) :
    renumber n (bundle ∪ other) = renumber n bundle ∪ renumber n other := by
  refine ExtTreeMap.ext_getElem? fun path => ?_
  simp only [getElem?_renumber, ExtTreeMap.getElem?_union]
  cases other[path]? <;> rfl

theorem renumber_filter (bundle : Bundle) (keep : Path → Bool) :
    renumber n (bundle.filter fun path _ => keep path) =
      (renumber n bundle).filter fun path _ => keep path := by
  refine ExtTreeMap.ext_getElem? fun path => ?_
  simp only [getElem?_renumber, ExtTreeMap.getElem?_filter']
  cases bundle[path]? with
  | none => rfl
  | some extent => cases keep path <;> simp [Option.filter]

theorem renumber_ofList (entries : List (Path × Extent)) : renumber n (.ofList entries compare) =
      .ofList (entries.map fun entry => (entry.1, entry.2.renumber n)) compare :=
  PathMap.map_ofList entries

@[simp] theorem scopedTo_renumber (bundle : Bundle) (base : Path) :
    (renumber n bundle).scopedTo base = renumber n (bundle.scopedTo base) := by
  refine ExtTreeMap.ext_getElem? fun path => ?_
  simp only [getElem?_scopedTo, getElem?_renumber]

@[simp] theorem tracked_renumber (bundle : Bundle) :
    (renumber n bundle).tracked = bundle.tracked.map (Lifetime.renumber n) := by
  simp [tracked, List.filter_map, Function.comp_def]

end Bundle

/-! ## Frames -/

def Scope.renumber (n : Nat) (scope : Scope) : Scope :=
  ⟨Bundle.renumber n scope.bindings, scope.declared⟩

namespace Frame

def renumber (n : Nat) (frame : Frame) : Frame :=
  ⟨frame.innermost.renumber n, frame.enclosing.map (Scope.renumber n), frame.inLoop⟩

variable (frame : Frame)

@[simp] theorem renumber_zero : frame.renumber 0 = frame := by
  simp [renumber, show Scope.renumber 0 = id from funext fun scope => by simp [Scope.renumber]]

@[simp] theorem inLoop_renumber : (frame.renumber n).inLoop = frame.inLoop := rfl

@[simp] theorem renumber_child : frame.child.renumber n = (frame.renumber n).child := by
  simp [renumber, child, Scope.renumber, Scope.empty]

@[simp] theorem renumber_loopBody : frame.loopBody.renumber n = (frame.renumber n).loopBody := by
  simp [renumber, loopBody, child, Scope.renumber, Scope.empty]

@[simp] theorem renumber_frameRoot : Frame.root.renumber n = .root := by
  simp [renumber, root, Scope.renumber, Scope.empty]

@[simp] theorem lookup?_renumber (path : Path) :
    (frame.renumber n).lookup? path = (frame.lookup? path).map (Extent.renumber n) := by
  have hscopes : ∀ scopes : List Scope,
      (scopes.map (Scope.renumber n)).findSome? (fun scope => scope.bindings[path]?) =
        (scopes.findSome? fun scope => scope.bindings[path]?).map (Extent.renumber n) := by
    intro scopes
    induction scopes with
    | nil => rfl
    | cons scope scopes ih =>
      simp only [List.map_cons, List.findSome?_cons, Scope.renumber, Bundle.getElem?_renumber]
      cases scope.bindings[path]? with
      | none => exact ih
      | some extent => rfl
  exact hscopes frame.scopes

@[simp] theorem renumber_declare (path : Path) (extent : Extent) :
    (frame.declare path extent).renumber n = (frame.renumber n).declare path
    (extent.renumber n) := by
  simp [renumber, declare, Scope.renumber, Bundle.renumber_insert]

theorem rebind_renumber (path : Path) (extent : Extent) :
    (frame.renumber n).rebind path (extent.renumber n) =
      (frame.rebind path extent).map (renumber n) := by
  unfold rebind
  rw [lookup?_renumber]
  cases frame.lookup? path with
  | none => rfl
  | some found => simp [renumber, Scope.renumber, Bundle.renumber_insert, Except.map]

theorem get_renumber (path : Path) :
    (frame.renumber n).get path = (frame.get path).map (Extent.renumber n) := by
  unfold get
  rw [lookup?_renumber]
  cases frame.lookup? path <;> rfl

theorem visible_renumber : (frame.renumber n).visible = Bundle.renumber n frame.visible := by
  refine ExtTreeMap.ext_getElem? fun path => ?_
  rw [Bundle.getElem?_renumber, getElem?_visible, getElem?_visible, lookup?_renumber]

@[simp] theorem rebindings_renumber :
    (frame.renumber n).rebindings = Bundle.renumber n frame.rebindings := by
  have hfilter := Bundle.renumber_filter (n := n) frame.innermost.bindings
    fun path => decide (path ∉ frame.innermost.declared)
  exact hfilter.symm

end Frame

/-! ## Results -/

namespace Flow

def NodeFlow.renumber (n : Nat) (flow : NodeFlow) : NodeFlow :=
  ⟨Bundle.renumber n flow.bundle, flow.escaping⟩

@[simp] theorem NodeFlow.renumber_zero : NodeFlow.renumber 0 = id := by
  funext flow
  simp [renumber]

def HeapWrite.renumber (n : Nat) (write : HeapWrite) : HeapWrite :=
  ⟨write.container.renumber n, write.stored.renumber n, write.span⟩

@[simp] theorem HeapWrite.renumber_zero : HeapWrite.renumber 0 = id := by
  funext write
  simp [renumber]

/-- The results of a function when `n` more versions were given out before it. -/
def OwnerFlow.renumber (n : Nat) (flows : OwnerFlow) : OwnerFlow :=
  ⟨flows.items.map (Option.map (NodeFlow.renumber n))⟩

namespace OwnerFlow

variable (flows : OwnerFlow)

@[simp] theorem get?_renumber (id : NodeId) :
    (renumber n flows).get? id = (flows.get? id).map (Option.map (NodeFlow.renumber n)) := by
  simp [renumber, Arena.get?]

theorem get_renumber (id : NodeId) :
    (renumber n flows).get id = (flows.get id).map (Option.map (NodeFlow.renumber n)) := by
  unfold Arena.get
  rw [get?_renumber]
  cases flows.get? id <;> rfl

theorem set_renumber (id : NodeId) (flow : NodeFlow) :
    (renumber n flows).set id (some (flow.renumber n)) =
      (flows.set id (some flow)).map (renumber n) := by
  unfold Arena.set
  have hsize : (renumber n flows).size = flows.size := by
    simp [renumber, Arena.size]
  rw [hsize]
  split
  · simp [renumber, Except.map]
  · rfl

@[simp] theorem renumber_replicate (size : Nat) :
    renumber n (.replicate size none) = .replicate size none := by
  simp [renumber, Arena.replicate]

end OwnerFlow

end Flow
end Regions
