import Mathlib.Data.List.Infix
import Regions.Proofs.NestedFrames
import Regions.Proofs.Variables

/-!
# Frames along an analysis

What is bound in a frame is logged, and a block passes on to the frame around it what it has changed
there.

* `Logged`: a version that came between two states;
* `Absorbs`: the frame around a block, with the changes;
* `runs_block`: the parts of a block.
-/

namespace Regions.Flow

variable {env : Env} {s s₁ s' : State} {q : Path} {version : Lifetime}

/-- Between the states, the version of the path became the current one. -/
def Logged (s s' : State) (q : Path) (version : Lifetime) : Prop :=
  (q, version) ∈ s'.context.rebound.drop s.context.rebound.length

theorem Logged.later (h : Logged s s₁ q version) (hgrows : Grows s₁ s') :
    Logged s s' q version :=
  (hgrows.rebound.drop _).subset h

theorem Logged.earlier (h : Logged s₁ s' q version) (hgrows : Grows s s₁) :
    Logged s s' q version :=
  List.drop_subset_drop_left _ hgrows.rebound.length_le h

theorem Logged.split (h : Logged s s' q version) (hgrows : Grows s s₁)
    (hgrows' : Grows s₁ s') : Logged s s₁ q version ∨ Logged s₁ s' q version := by
  obtain ⟨made, hmade⟩ := hgrows.rebound
  obtain ⟨added, hadded⟩ := hgrows'.rebound
  rw [Logged, ← hadded, ← hmade, List.append_assoc, List.drop_left, List.mem_append] at h
  rw [Logged, Logged, ← hadded, List.drop_left, ← hmade, List.drop_left]
  exact h

/-! ## Blocks -/

/-- The frame takes over the changes that a nested frame made to its variables. -/
structure Absorbs (changes : PathMap Extent) (s s' : State) : Prop where
  recorded : s'.recorded = s.recorded
  lookup : ∀ q, s'.frame.lookup? q = changes[q]?.or (s.frame.lookup? q)
  visible : ∀ (q : Path) (extent : Extent), changes[q]? = some extent →
    ∃ before, s.frame.lookup? q = some before

theorem runs_rebindAll {entries : List (Path × Extent)}
    (h : Runs (entries.forM fun entry => rebind entry.1 entry.2) s () s') :
    ∃ frame, s.frame.rebindAll entries = .ok frame ∧ s' = { s with frame } := by
  induction h using runs_forM_rec with
  | nil s => exact ⟨s.frame, rfl, rfl⟩
  | cons entry entries hentry _ ih =>
    obtain ⟨next, hnext, rfl⟩ := runs_rebind_iff.1 hentry
    obtain ⟨frame, hframe, rfl⟩ := ih
    exact ⟨frame, Frame.rebindAll_cons_iff.2 ⟨next, hnext, hframe⟩, rfl⟩

theorem absorbs_of_runs {changes : PathMap Extent}
    (h : Runs (changes.toList.forM fun entry => rebind entry.1 entry.2) s () s') :
    Absorbs changes s s' := by
  obtain ⟨frame, hframe, rfl⟩ := runs_rebindAll h
  obtain ⟨-, -, hall⟩ := Frame.lookup?_rebindAll hframe
  refine ⟨rfl, Frame.lookup?_rebindAll_of_perm (.refl _) hframe, ?_⟩
  intro q extent hchange
  exact ((hall q).2 extent (Std.ExtTreeMap.mem_toList_iff_getElem?_eq_some.2 hchange)).1

theorem runs_block {recur : Recur} {id : NodeId} {statements : List NodeId}
    (h : Runs (block env recur id statements) s () s') :
    ∃ s₁ s₂ bundle, Runs (statements.forM (recur .value))
    { s with frame := s.frame.child } () s₁ ∧
      Absorbs s₁.frame.rebindings { s₁ with frame := s.frame } s₂ ∧
      Recorded id bundle s₂ s' ∧
      Grows s₁ s' ∧ ∀ last ty, statements.getLast? = some last → env.typeOf id = .ok ty →
      ty.isVoid = false → ∃ flow, s₂.flowAt last = some flow ∧ bundle = flow.bundle := by
  simp only [block, runs_bind_iff, runs_within_iff] at h
  obtain ⟨_, _, ⟨s₁, hstatements, rfl, rfl⟩, _, s₂, hchanges, h⟩ := h
  have habsorbs := absorbs_of_runs hchanges
  have hgrows : Grows s₁ s₂ := by
    obtain ⟨frame, -, rfl⟩ := runs_rebindAll hchanges
    exact Grows.frame s₁ frame
  cases hlast : statements.getLast? with
  | none =>
    rw [hlast] at h
    exact ⟨s₁, s₂, ∅, hstatements, habsorbs, recorded_of_runs h,
      hgrows.trans (Grows.of_record h), by simp⟩
  | some last =>
    simp only [hlast, runs_bind_iff, runs_lift_iff, runs_ite_iff, runs_bundleOf_iff,
      runs_escapingOf_iff] at h
    obtain ⟨ty, _, ⟨hty, rfl⟩, ⟨hvoid, h⟩ |
      ⟨_, _, _, ⟨flow, hflow, rfl, rfl⟩, _, _, ⟨_, _, rfl, rfl⟩, h⟩⟩ := h
    · refine ⟨s₁, _, ∅, hstatements, habsorbs, recorded_of_runs h,
        hgrows.trans (Grows.of_record h), fun _ ty' _ hty' hval => ?_⟩
      cases hty.symm.trans hty'
      simp [hvoid] at hval
    · refine ⟨s₁, _, _, hstatements, habsorbs, recorded_of_runs h,
        hgrows.trans (Grows.of_record h), fun last' _ hlast' _ _ => ?_⟩
      cases hlast'
      exact ⟨flow, hflow, rfl⟩

end Regions.Flow
