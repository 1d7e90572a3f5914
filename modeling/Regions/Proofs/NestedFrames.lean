import Regions.Frame
import Regions.Proofs.Checks

/-!
# Frames inside of frames

A nested frame reads through to the frame that it was made from, and keeps its own changes to
itself. When it is left, the outer frame is given the new extents of outer variables, one after the
other. This file says that the order does not matter, that none of them is refused, and that both
frames agree afterwards.

* `Frame.Change`, `Frame.perform`: declarations and new extents, in a row;
* `Frame.outward`: the frames around a frame;
* `Frame.rebindAll`: new extents for some paths, one after the other;
* `Frame.Nests`: what a nested frame has in common with the outer one, after any changes;
* `outer_of_nested`: lookups, visible paths and what is passed on agree.
-/

namespace Regions
namespace Frame

open Std

variable {frame outer inner after : Frame} {path : Path} {extent : Extent}
  {entries : List (Path × Extent)}

/-- What is done to the variables of a frame. -/
inductive Change
  | declare (path : Path) (extent : Extent)
  | rebind (path : Path) (extent : Extent)

def Change.perform (frame : Frame) : Change → Except Fault Frame
  | .declare path extent => .ok (frame.declare path extent)
  | .rebind path extent => frame.rebind path extent

/-- Changes in a row, up to the first one that is refused. -/
def perform (frame : Frame) (changes : List Change) : Except Fault Frame :=
  changes.foldlM Change.perform frame

/-- New extents for some paths, one after the other. -/
def rebindAll (frame : Frame) (entries : List (Path × Extent)) : Except Fault Frame :=
  entries.foldlM (fun frame entry => frame.rebind entry.1 entry.2) frame

/-- The frame itself, the one that it was made from, and so on. -/
def outward (frame : Frame) : Nat → Option Frame
  | 0 => some frame
  | n + 1 => match frame.enclosing with
    | [] => none
    | scope :: scopes => outward ⟨scope, scopes, frame.inLoop⟩ n

/-! ## New extents, one after the other -/

/-- A new extent for a visible path leaves the scopes around the frame and its declarations
alone. -/
theorem rebind_scopes (h : frame.rebind path extent = .ok after) :
    after.enclosing = frame.enclosing ∧ after.innermost.declared = frame.innermost.declared ∧
      ∃ before, frame.lookup? path = some before := by
  unfold rebind at h
  split at h
  · rename_i before hbefore
    cases h
    exact ⟨rfl, rfl, before, hbefore⟩
  · cases h

theorem exists_rebind {before : Extent} (h : frame.lookup? path = some before) (extent : Extent) :
    ∃ after, frame.rebind path extent = .ok after := by
  simp [rebind, h]

theorem visible_rebind (h : frame.rebind path extent = .ok after) (other : Path)
    (hother : ∃ found, frame.lookup? other = some found) :
    ∃ found, after.lookup? other = some found := by
  rw [lookup?_rebind h]
  split
  · exact ⟨extent, rfl⟩
  · exact hother

theorem rebindAll_cons_iff {entry : Path × Extent} :
    frame.rebindAll (entry :: entries) = .ok after ↔
      ∃ next, frame.rebind entry.1 entry.2 = .ok next ∧ next.rebindAll entries = .ok after := by
  unfold rebindAll
  rw [List.foldlM_cons]
  cases frame.rebind entry.1 entry.2 with
  | ok next => simp [bind, Except.bind]
  | error fault => simp [bind, Except.bind]

/-- Each path has its last new extent, and the others keep theirs. -/
theorem lookup?_rebindAll (h : frame.rebindAll entries = .ok after) :
    after.enclosing = frame.enclosing ∧ after.innermost.declared = frame.innermost.declared ∧
      ∀ q, ((∀ extent, (q, extent) ∉ entries) → after.lookup? q = frame.lookup? q) ∧
        ∀ extent, (q, extent) ∈ entries → (∃ before, frame.lookup? q = some before) ∧
          ((∀ other, (q, other) ∈ entries → other = extent) →
            after.lookup? q = some extent) := by
  induction entries generalizing frame with
  | nil =>
    cases h
    simp
  | cons entry entries ih =>
    obtain ⟨next, hentry, hrest⟩ := rebindAll_cons_iff.1 h
    obtain ⟨henclosing, hdeclared, before, hbefore⟩ := rebind_scopes hentry
    have hlookup := lookup?_rebind hentry
    obtain ⟨henclosing', hdeclared', hall⟩ := ih hrest
    refine ⟨henclosing'.trans henclosing, hdeclared'.trans hdeclared,
      fun q => ⟨fun hnone => ?_, fun extent hmem => ⟨?_, fun hunique => ?_⟩⟩⟩
    · have hne : q ≠ entry.1 := fun heq => hnone entry.2 (by simp [heq])
      rw [(hall q).1 fun extent hmem => hnone extent (List.mem_cons_of_mem _ hmem)]
      exact (hlookup q).trans (if_neg hne)
    · by_cases heq : q = entry.1
      · exact ⟨before, heq ▸ hbefore⟩
      · obtain hmem := (List.mem_cons.1 hmem).resolve_left (by rintro rfl; exact heq rfl)
        obtain ⟨found, hfound⟩ := ((hall q).2 extent hmem).1
        exact ⟨found, ((hlookup q).trans (if_neg heq)).symm.trans hfound⟩
    · by_cases hlater : (q, extent) ∈ entries
      · exact ((hall q).2 extent hlater).2 fun other hother =>
          hunique other (List.mem_cons_of_mem _ hother)
      · obtain rfl := (List.mem_cons.1 hmem).resolve_right hlater
        rw [(hall q).1 fun other hother =>
          hlater (hunique other (List.mem_cons_of_mem _ hother) ▸ hother)]
        exact (hlookup q).trans (if_pos rfl)

/-- With one new extent for each path, the order makes no difference. -/
theorem lookup?_rebindAll_of_perm {changes : PathMap Extent} (hperm : entries.Perm changes.toList)
    (h : frame.rebindAll entries = .ok after) (q : Path) :
    after.lookup? q = changes[q]?.or (frame.lookup? q) := by
  have hmem : ∀ extent, (q, extent) ∈ entries ↔ changes[q]? = some extent := fun extent =>
    hperm.mem_iff.trans ExtTreeMap.mem_toList_iff_getElem?_eq_some
  obtain ⟨hnone, hsome⟩ := (lookup?_rebindAll h).2.2 q
  cases hchange : changes[q]? with
  | none =>
    refine hnone fun extent hentry => ?_
    cases hchange.symm.trans ((hmem extent).1 hentry)
  | some extent =>
    refine (hsome extent ((hmem extent).2 hchange)).2 fun other hother => ?_
    cases hchange.symm.trans ((hmem other).1 hother)
    rfl

/-- New extents for visible paths are not refused. -/
theorem exists_rebindAll
    (hvisible : ∀ entry ∈ entries, ∃ before, frame.lookup? entry.1 = some before) :
    ∃ after, frame.rebindAll entries = .ok after := by
  induction entries generalizing frame with
  | nil => exact ⟨frame, rfl⟩
  | cons entry entries ih =>
    obtain ⟨before, hbefore⟩ := hvisible entry List.mem_cons_self
    obtain ⟨next, hnext⟩ := exists_rebind hbefore entry.2
    obtain ⟨after, hafter⟩ := ih fun other hother =>
      visible_rebind hnext other.1 (hvisible other (List.mem_cons_of_mem _ hother))
    exact ⟨after, rebindAll_cons_iff.2 ⟨next, hnext, hafter⟩⟩

/-! ## Nested frames -/

theorem getElem?_rebindings (frame : Frame) (path : Path) : frame.rebindings[path]? =
    if path ∈ frame.innermost.declared then none else frame.innermost.bindings[path]? := by
  rw [rebindings, ExtTreeMap.getElem?_filter']
  split <;> cases frame.innermost.bindings[path]? <;> simp [Option.filter, *]

theorem getElem?_rebindings_eq_some : frame.rebindings[path]? = some extent ↔
    path ∉ frame.innermost.declared ∧ frame.innermost.bindings[path]? = some extent := by
  rw [getElem?_rebindings]
  split <;> simp [*]

/-- What a frame passes on can be looked up in it. -/
theorem lookup?_of_rebindings (h : frame.rebindings[path]? = some extent) :
    frame.lookup? path = some extent := by
  rw [lookup?_eq, (getElem?_rebindings_eq_some.1 h).2]
  rfl

/-- The frame is one inside of `outer`, after some changes: it binds what it has declared, and
visible paths of the outer frame. -/
structure Nests (outer inner : Frame) (changes : List Change) : Prop where
  enclosing : inner.enclosing = outer.scopes
  declared : ∀ path, path ∈ inner.innermost.declared ↔
    ∃ extent, .declare path extent ∈ changes
  bindings : ∀ path extent, inner.innermost.bindings[path]? = some extent →
    path ∈ inner.innermost.declared ∨ ∃ before, outer.lookup? path = some before

namespace Nests

variable {changes : List Change}

theorem enter {enter : Frame → Frame} (henter : enter = child ∨ enter = loopBody) :
    Nests outer (enter outer) [] := by
  rcases henter with rfl | rfl <;> refine ⟨rfl, ?_, ?_⟩ <;> simp [child, loopBody, Scope.empty]

theorem lookup? (h : Nests outer inner changes) (q : Path) :
    inner.lookup? q = inner.innermost.bindings[q]?.or (outer.lookup? q) := by
  rw [lookup?_eq, h.enclosing]
  rfl

theorem step {change : Change} (h : Nests outer inner changes)
    (hchange : change.perform inner = .ok after) : Nests outer after (changes ++ [change]) := by
  cases change with
  | declare path extent =>
    cases hchange
    refine ⟨h.enclosing, fun q => ?_, fun q found hfound => ?_⟩
    · rw [Frame.declare, ExtTreeSet.mem_insert, Std.compare_eq_iff_eq, h.declared]
      simp [exists_or, or_comm, eq_comm]
    · simp only [Frame.declare, ExtTreeMap.getElem?_insert, ExtTreeSet.mem_insert] at hfound ⊢
      split at hfound
      · exact .inl (.inl (by assumption))
      · exact (h.bindings q found hfound).imp_left .inr
  | rebind path extent =>
    obtain ⟨henclosing, hdeclared, before, hbefore⟩ := rebind_scopes hchange
    refine ⟨henclosing.trans h.enclosing, fun q => ?_, fun q found hfound => ?_⟩
    · rw [hdeclared, h.declared]
      simp
    · rw [hdeclared]
      have hvisible : ∀ {q found}, inner.lookup? q = some found →
          q ∈ inner.innermost.declared ∨ ∃ before, outer.lookup? q = some before := by
        intro q found hq
        rw [h.lookup?, Option.or_eq_some_iff] at hq
        exact hq.elim (h.bindings q found) fun houter => .inr ⟨found, houter.2⟩
      by_cases hq : q = path
      · exact hvisible (hq ▸ hbefore)
      · have hsame := lookup?_rebind hchange q
        rw [if_neg hq, lookup?_eq, hfound] at hsame
        exact hvisible hsame.symm

theorem perform {done : List Change} (hstart : Nests outer frame done)
    (h : frame.perform changes = .ok inner) : Nests outer inner (done ++ changes) := by
  induction changes generalizing frame done with
  | nil =>
    cases h
    rwa [List.append_nil]
  | cons change changes ih =>
    obtain ⟨next, hchange, hrest⟩ := except_bind_eq_ok h
    simpa using ih (hstart.step hchange) hrest

end Nests

/-- Lookups do not ask whether a frame is in a loop. -/
theorem outward_inLoop (scope : Scope) (scopes : List Scope) (inLoop inLoop' : Bool) (n : Nat)
    (path : Path) : (outward ⟨scope, scopes, inLoop⟩ n).map (·.lookup? path) =
      (outward ⟨scope, scopes, inLoop'⟩ n).map (·.lookup? path) := by
  induction n generalizing scope scopes with
  | zero => rfl
  | succ n ih =>
    cases scopes with
    | nil => rfl
    | cons scope scopes => exact ih scope scopes

/-- In every frame, the visible paths are those that can be looked up. Whatever is declared in a
nested frame or bound anew, the frames around it stay as they are. If it has declared no variable
that the outer frame knows, the outer frame can take over what it passes on, in any order, and then
knows what it knows, less its variables. -/
theorem outer_of_nested :
    (∀ (frame : Frame) (path : Path), frame.visible[path]? = frame.lookup? path) ∧
    ∀ (outer inner : Frame) (enter : Frame → Frame) (changes : List Change),
      enter = child ∨ enter = loopBody → (enter outer).perform changes = .ok inner →
      (∀ n path, (inner.outward (n + 1)).map (·.lookup? path) = (outer.outward n).map
        (·.lookup? path)) ∧
      ((∀ path extent, .declare path extent ∈ changes → outer.lookup? path = none) →
        ∀ entries, entries.Perm inner.rebindings.toList →
        ∃ after, outer.rebindAll entries = .ok after ∧
          (∀ path, (∀ extent, .declare path extent ∉ changes) →
            after.lookup? path = inner.lookup? path) ∧
          ∀ path extent, .declare path extent ∈ changes → after.lookup? path = none) := by
  refine ⟨getElem?_visible, fun outer inner enter changes henter hperform =>
    ⟨fun n path => ?_, ?_⟩⟩
  · have hnests := (Nests.enter henter).perform hperform
    rw [outward, hnests.enclosing]
    exact outward_inLoop _ _ _ _ n path
  · intro hapart entries hperm
    have hnests := (Nests.enter henter).perform hperform
    rw [List.nil_append] at hnests
    -- What the nested frame passes on is not its own, so that it was visible before.
    have hvisible : ∀ entry ∈ entries, ∃ before, outer.lookup? entry.1 = some before := by
      intro entry hentry
      obtain ⟨hforeign, hbinding⟩ := getElem?_rebindings_eq_some.1
        (Std.ExtTreeMap.mem_toList_iff_getElem?_eq_some.1 (hperm.mem_iff.1 hentry))
      exact (hnests.bindings _ _ hbinding).resolve_left hforeign
    obtain ⟨after, hafter⟩ := exists_rebindAll hvisible
    have hlookup := lookup?_rebindAll_of_perm hperm hafter
    refine ⟨after, hafter, fun path hnot => ?_, fun path extent hdeclare => ?_⟩
    · have hnot' : path ∉ inner.innermost.declared := by simpa [hnests.declared] using hnot
      rw [hlookup, getElem?_rebindings, if_neg hnot', hnests.lookup?]
    · have hdeclared : path ∈ inner.innermost.declared :=
        (hnests.declared path).2 ⟨extent, hdeclare⟩
      rw [hlookup, getElem?_rebindings, if_pos hdeclared, hapart path extent hdeclare]
      rfl

/-- A block that declares one variable and binds another one anew. -/
theorem outer_of_block :
    let x : Path := .single "x"
    let y : Path := .single "y"
    let outer := root.declare x (.ofValue .heap)
    let changes : List Change := [.declare y (.ofValue .heap), .rebind x .untracked]
    ∃ inner, (child outer).perform changes = .ok inner ∧
      (∀ path extent, .declare path extent ∈ changes → outer.lookup? path = none) ∧
      ∃ after, outer.rebindAll inner.rebindings.toList = .ok after ∧
        (∀ path, (∀ extent, .declare path extent ∉ changes) →
        after.lookup? path = inner.lookup? path) ∧
        ∀ path extent, .declare path extent ∈ changes → after.lookup? path = none := by
  intro x y outer changes
  have hne : x ≠ y := by decide
  have hx : (outer.child.declare y (.ofValue .heap)).lookup? x = some (.ofValue .heap) := by
    rw [lookup?_declare, if_neg hne, lookup?_child, lookup?_declare, if_pos rfl]
  obtain ⟨inner, hinner⟩ := exists_rebind hx .untracked
  have hperform : (child outer).perform changes = .ok inner := by
    change (outer.child.declare y (.ofValue .heap)).rebind x .untracked >>= _ = _
    rw [hinner]
    rfl
  have hapart : ∀ path extent, .declare path extent ∈ changes →
      outer.lookup? path = none := by
    intro path extent hdeclare
    obtain ⟨rfl, -⟩ : path = y ∧ extent = .ofValue .heap := by simpa [changes] using hdeclare
    rw [lookup?_declare, if_neg hne.symm]
    rfl
  exact ⟨inner, hperform, hapart,
    (outer_of_nested.2 outer inner child changes (.inl rfl) hperform).2 hapart _ (.refl _)⟩

end Frame
end Regions
