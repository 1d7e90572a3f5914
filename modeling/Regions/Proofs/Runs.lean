import Regions.Flow.Results
import Regions.Proofs.Checks

/-!
# Successful runs of analysis steps

`Runs step s a s'` says that a step of the analysis succeeds from `s`, gives `a`, and leaves the
state `s'`. Each way to build steps has one equation here, so that the rules of the analysis can
be taken apart without unfolding the monad:

* sequencing, reading and changing the state, and lifting of checks;
* loops over lists.

`Halts step s s'` says that the step is halted from outside, in the middle of an analysis.
-/

namespace Regions.Flow

/-- From `s`, the step succeeds with `a` and leaves `s'`. -/
def Runs {α : Type} (step : FlowM α) (s : State) (a : α) (s' : State) : Prop :=
  step s = .ok a s'

section Monad

variable {α β : Type} {s s' : State} {u : PUnit}

@[simp] theorem runs_pure_iff {a b : α} : Runs (pure a) s b s' ↔ a = b ∧ s = s' := by
  simp [Runs, pure, EStateM.pure]

@[simp] theorem runs_bind_iff {step : FlowM α} {next : α → FlowM β} {b : β} :
    Runs (step >>= next) s b s' ↔ ∃ a s₁, Runs step s a s₁ ∧ Runs (next a) s₁ b s' := by
  simp only [Runs, bind, EStateM.bind]
  cases step s with
  | ok a s₁ =>
    constructor
    · intro h
      exact ⟨a, s₁, rfl, h⟩
    · rintro ⟨a', s₂, h, h'⟩
      cases h
      exact h'
  | error e s₁ => simp

@[simp] theorem runs_map_iff {step : FlowM α} {f : α → β} {b : β} :
    Runs (f <$> step) s b s' ↔ ∃ a, Runs step s a s' ∧ f a = b := by
  simp only [← bind_pure_comp, runs_bind_iff, runs_pure_iff]
  constructor
  · rintro ⟨a, s₁, h, rfl, rfl⟩
    exact ⟨a, h, rfl⟩
  · rintro ⟨a, h, rfl⟩
    exact ⟨a, s', h, rfl, rfl⟩

@[simp] theorem runs_discard_iff {step : FlowM α} :
    Runs (discard step) s u s' ↔ ∃ a, Runs step s a s' := by
  change Runs ((fun _ => PUnit.unit) <$> step) s u s' ↔ _
  simp

@[simp] theorem runs_get_iff {t : State} : Runs get s t s' ↔ s = t ∧ s = s' := by
  change EStateM.Result.ok s s = .ok t s' ↔ _
  simp

@[simp] theorem runs_modify_iff {f : State → State} :
    Runs (modify f) s u s' ↔ f s = s' := by
  change EStateM.Result.ok PUnit.unit (f s) = .ok u s' ↔ _
  simp

@[simp] theorem runs_throw_iff {abort : Abort} {a : α} : Runs (throw abort) s a s' ↔ False := by
  change EStateM.Result.error abort s = .ok a s' ↔ _
  simp

@[simp] theorem runs_lift_iff {result : Except Fault α} {a : α} :
    Runs (liftM result : FlowM α) s a s' ↔ result = .ok a ∧ s = s' := by
  cases result <;> simp [liftM, monadLift, MonadLift.monadLift]

@[simp] theorem runs_ite_iff {p : Prop} [Decidable p] {yes no : FlowM α} {a : α} :
    Runs (if p then yes else no) s a s' ↔ (p ∧ Runs yes s a s') ∨
    (¬ p ∧ Runs no s a s') := by
  by_cases h : p <;> simp [h]

theorem Runs.det {step : FlowM α} {a b : α} {t : State} (h : Runs step s a s')
    (h' : Runs step s b t) : a = b ∧ s' = t := by
  have heq : EStateM.Result.ok a s' = .ok b t := h.symm.trans h'
  cases heq
  exact ⟨rfl, rfl⟩

instance decidableExistsRuns {step : FlowM α} {P : α → State → Prop}
    [∀ a s', Decidable (P a s')] : Decidable (∃ a s', Runs step s a s' ∧ P a s') :=
  match h : step s with
  | .ok a s' => decidable_of_iff (P a s') (by simp [Runs, h])
  | .error _ _ => .isFalse (by simp [Runs, h])

instance decidableExistsRunsUnit {step : FlowM Unit} {P : State → Prop}
    [∀ s', Decidable (P s')] : Decidable (∃ s', Runs step s () s' ∧ P s') :=
  decidable_of_iff (∃ u s', Runs step s u s' ∧ P s')
    ⟨by rintro ⟨_, h⟩; exact h, fun h => ⟨(), h⟩⟩

/-! ## Loops over lists -/

@[simp] theorem runs_forM_nil_iff {f : α → FlowM PUnit} :
    Runs ([].forM f) s u s' ↔ s = s' := by
  change Runs (pure PUnit.unit) s u s' ↔ _
  simp

@[simp] theorem runs_forM_cons_iff {f : α → FlowM PUnit} {x : α} {xs : List α} :
    Runs ((x :: xs).forM f) s u s' ↔
      ∃ s₁, Runs (f x) s PUnit.unit s₁ ∧ Runs (xs.forM f) s₁ PUnit.unit s' := by
  change Runs (f x >>= fun _ => xs.forM f) s u s' ↔ _
  simp only [runs_bind_iff]
  constructor
  · rintro ⟨⟨⟩, s₁, h, h'⟩
    exact ⟨s₁, h, h'⟩
  · rintro ⟨s₁, h, h'⟩
    exact ⟨PUnit.unit, s₁, h, h'⟩

theorem runs_forM_singleton_iff {f : α → FlowM PUnit} {x : α} :
    Runs ([x].forM f) s u s' ↔ Runs (f x) s PUnit.unit s' := by
  simp only [runs_forM_cons_iff, runs_forM_nil_iff, exists_eq_right]

/-- Induction along the run of a loop. -/
theorem runs_forM_rec {f : α → FlowM PUnit}
    {motive : (xs : List α) → (s s' : State) → Runs (xs.forM f) s u s' → Prop}
    (nil : ∀ s, motive [] s s (runs_forM_nil_iff.2 rfl))
    (cons : ∀ x xs {s s₁ s'} (hx : Runs (f x) s PUnit.unit s₁) (hxs : Runs
      (xs.forM f) s₁ u s'),
      motive xs s₁ s' hxs → motive (x :: xs) s s' (runs_forM_cons_iff.2 ⟨s₁, hx, hxs⟩))
    {xs : List α} {s s' : State} (h : Runs (xs.forM f) s u s') : motive xs s s' h := by
  induction xs generalizing s with
  | nil =>
    obtain rfl := runs_forM_nil_iff.1 h
    exact nil s
  | cons x xs ih =>
    obtain ⟨s₁, hx, hxs⟩ := runs_forM_cons_iff.1 h
    exact cons x xs hx hxs (ih hxs)

/-- What each step of a loop keeps holds after the loop. -/
theorem runs_forM_induction {f : α → FlowM PUnit} {xs : List α} {P : State → Prop}
    (hstep : ∀ x ∈ xs, ∀ s s', P s → Runs (f x) s PUnit.unit s' → P s') (hs : P s)
    (h : Runs (xs.forM f) s u s') : P s' := by
  induction h using runs_forM_rec with
  | nil => exact hs
  | cons x xs hx _ ih =>
    exact ih (fun y hy => hstep y (List.mem_cons_of_mem _ hy))
      (hstep x List.mem_cons_self _ _ hs hx)

@[simp] theorem runs_mapM_nil_iff {f : α → FlowM β} {bs : List β} :
    Runs ([].mapM f) s bs s' ↔ bs = [] ∧ s = s' := by
  rw [List.mapM_nil, runs_pure_iff, eq_comm]

@[simp] theorem runs_mapM_cons_iff {f : α → FlowM β} {x : α} {xs : List α} {bs : List β} :
    Runs ((x :: xs).mapM f) s bs s' ↔
      ∃ b s₁ rest, Runs (f x) s b s₁ ∧ Runs (xs.mapM f) s₁ rest s' ∧
      bs = b :: rest := by
  rw [List.mapM_cons]
  simp only [runs_bind_iff, runs_pure_iff]
  constructor
  · rintro ⟨b, s₁, h, rest, s₂, h', rfl, rfl⟩
    exact ⟨b, s₁, rest, h, h', rfl⟩
  · rintro ⟨b, s₁, rest, h, h', rfl⟩
    exact ⟨b, s₁, h, rest, s', h', rfl, rfl⟩

/-- A loop over steps that leave the state alone gives one result for each element. -/
theorem runs_mapM_of_fixed {f : α → FlowM β} {xs : List α} {bs : List β}
    (hf : ∀ x ∈ xs, ∀ s b s', Runs (f x) s b s' → s' = s) (h : Runs (xs.mapM f) s bs s') :
    s' = s ∧ List.Forall₂ (fun x b => Runs (f x) s b s) xs bs := by
  induction xs generalizing s bs with
  | nil =>
    obtain ⟨rfl, rfl⟩ := runs_mapM_nil_iff.1 h
    exact ⟨rfl, .nil⟩
  | cons x xs ih =>
    obtain ⟨b, s₁, rest, hx, hxs, rfl⟩ := runs_mapM_cons_iff.1 h
    obtain rfl := hf x List.mem_cons_self s b s₁ hx
    obtain ⟨rfl, hrest⟩ := ih (fun y hy => hf y (List.mem_cons_of_mem _ hy)) hxs
    exact ⟨rfl, .cons hx hrest⟩

end Monad

/-! ## Halted steps -/

/-- An abort that no rule of the analysis gives. -/
def halt : Abort := .violation (.returnEscape .whole ⟨0, 0⟩ [] [])

/-- From `s`, the step is halted in `s'`. -/
def Halts {α : Type} (step : FlowM α) (s s' : State) : Prop :=
  step s = .error halt s'

section Halts

variable {α β : Type} {s s' : State}

@[simp] theorem halts_throw_iff {abort : Abort} :
    Halts (throw abort : FlowM α) s s' ↔ abort = halt ∧ s = s' := by
  change EStateM.Result.error (α := α) abort s = .error halt s' ↔ _
  simp

@[simp] theorem fault_ne_halt {fault : Fault} : Abort.fault fault ≠ halt := by
  simp [halt]

instance decidableExistsHalts {step : FlowM α} {P : State → Prop} [∀ s', Decidable (P s')] :
    Decidable (∃ s', Halts step s s' ∧ P s') :=
  match h : step s with
  | .ok _ _ => .isFalse (by simp [Halts, h])
  | .error abort s' => decidable_of_iff (abort = halt ∧ P s') (by simp [Halts, h, and_assoc])

/-- A sequence of steps is halted in one of them. -/
@[simp] theorem halts_bind_iff {step : FlowM α} {next : α → FlowM β} :
    Halts (step >>= next) s s' ↔
      Halts step s s' ∨ ∃ a s₁, Runs step s a s₁ ∧ Halts (next a) s₁ s' := by
  simp only [Halts, Runs, bind, EStateM.bind]
  cases step s with
  | ok a s₁ =>
    constructor
    · intro h
      exact .inr ⟨a, s₁, rfl, h⟩
    · rintro (h | ⟨a', s₂, h, h'⟩)
      · cases h
      · cases h
        exact h'
  | error e s₁ => simp

end Halts

end Regions.Flow
