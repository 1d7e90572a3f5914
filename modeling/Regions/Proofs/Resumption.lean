import Regions.Proofs.Points

/-!
# Halted analyses and what comes after

An analysis that is halted at a moment has done what the analysis without halts does up to there. So
the state at the moment has grown to the state where the latter ends, whatever it ends with.

* `ending`: the state in which a step ends, early or not;
* `Resumes`, `respected_resumes`: a step that goes on where another one is halted;
* `resumes_analyzeUntil`: an analysis goes on from one moment to the next;
* `grows_of_halts`: what is known at a moment is known at the end.
-/

namespace Regions.Flow

variable {α β : Type} {s s' t : State} {id : NodeId} {env : Env}

/-- The state in which a step ends, early or not. -/
def ending (step : FlowM α) (s : State) : State :=
  match step s with
  | .ok _ s' => s'
  | .error _ s' => s'

theorem ending_of_runs {step : FlowM α} {a : α} (h : Runs step s a s') : ending step s = s' := by
  rw [ending, h]

theorem ending_of_aborts {step : FlowM α} {abort : Abort} (h : Aborts step s abort s') :
    ending step s = s' := by
  rw [ending, h]

/-- The second step goes on where the first one is halted. Otherwise the two do the same. -/
structure Resumes (halted step : FlowM α) : Prop where
  grows : ∀ s, Grows s (ending step s)
  ends : ∀ s, halted s = step s ∨ ∃ t, Halts halted s t ∧ Grows t (ending step s)

namespace Resumes

theorem same {step : FlowM α} (hgrows : ∀ s, Grows s (ending step s)) : Resumes step step :=
  ⟨hgrows, fun _ => .inl rfl⟩

/-- Where nothing has been done, everything is still to come. -/
theorem halted {step : FlowM α} (hgrows : ∀ s, Grows s (ending step s)) :
    Resumes (throw halt) step :=
  ⟨hgrows, fun s => .inr ⟨s, halts_throw_iff.2 ⟨rfl, rfl⟩, hgrows s⟩⟩

/-- A step that only makes the state grow, and does nothing if it ends early. -/
theorem of_keeps {step : FlowM α} (hkeeps : Keeps Grows step)
    (haborts : ∀ s abort s', Aborts step s abort s' → s = s') : Resumes step step := by
  refine .same fun s => ?_
  cases hstep : step s with
  | ok a s' =>
    rw [ending_of_runs hstep]
    exact hkeeps s a s' hstep
  | error abort s' =>
    rw [ending_of_aborts hstep, ← haborts s abort s' hstep]
    exact .refl s

theorem bind {halted step : FlowM α} {next next' : α → FlowM β} (h : Resumes halted step)
    (h' : ∀ a, Resumes (next a) (next' a)) : Resumes (halted >>= next) (step >>= next') := by
  have hlater : ∀ s, Grows (ending step s) (ending (step >>= next') s) := by
    intro s
    cases hstep : step s with
    | ok a s₁ =>
      have hbind : (step >>= next') s = next' a s₁ :=
        by simp only [Bind.bind, EStateM.bind, hstep]
      rw [ending_of_runs hstep, ending, hbind]
      exact (h' a).grows s₁
    | error abort s₁ =>
      rw [ending_of_aborts hstep, ending_of_aborts (aborts_bind_iff.2 (.inl hstep))]
      exact .refl s₁
  refine ⟨fun s => (h.grows s).trans (hlater s), fun s => ?_⟩
  rcases h.ends s with hsame | ⟨t, hhalt, hgrows⟩
  · cases hstep : step s with
    | ok a s₁ =>
      have hbind : (halted >>= next) s = next a s₁ :=
        by simp only [Bind.bind, EStateM.bind, hsame, hstep]
      have hbind' : (step >>= next') s = next' a s₁ :=
        by simp only [Bind.bind, EStateM.bind, hstep]
      have hends := (h' a).ends s₁
      unfold Halts ending at hends ⊢
      rw [hbind, hbind']
      exact hends
    | error abort s₁ =>
      left
      simp only [Bind.bind, EStateM.bind, hsame, hstep]
  · exact .inr ⟨t, halts_bind_iff.2 (.inl hhalt), hgrows.trans (hlater s)⟩

theorem declare (path : Path) (extent : Extent) : Fixed Resumes (Flow.declare path extent) :=
  .same fun s => Grows.frame s _

theorem rebind (path : Path) (extent : Extent) : Fixed Resumes (Flow.rebind path extent) := by
  refine .of_keeps ((respected_grows ⟨0⟩).rebind path extent) fun s abort s' haborts => ?_
  simp only [Flow.rebind, aborts_bind_iff, aborts_lift_iff, not_aborts_get, not_aborts_modify,
    runs_get_iff, false_or, or_false, and_false, exists_false] at haborts
  obtain ⟨_, _, ⟨rfl, rfl⟩, _, _, _, rfl⟩ := haborts
  rfl

theorem grows_of_halts {halted step : FlowM α} (h : Resumes halted step)
    (hhalt : Halts halted s t) : Grows t (ending step s) := by
  rcases h.ends s with hsame | ⟨t', hhalt', hgrows⟩
  · rw [ending_of_aborts (hsame.symm.trans hhalt)]
    exact .refl t
  · cases hhalt.symm.trans hhalt'
    exact hgrows

end Resumes

theorem respected_resumes (id : NodeId) : Respected Resumes id where
  pure := fun _ => .same Grows.refl
  bind := .bind
  get := .same Grows.refl
  throw := fun _ => .same Grows.refl
  modifyContext := fun hf => .same fun s => (preserved_grows id).context s _ (hf s.context)
  declare := .declare
  rebind := .rebind
  adopt := fun version slot =>
        .of_keeps ((preserved_grows id).adopt version slot) fun s abort s' haborts =>
    (aborts_adopt haborts).1
  record := fun bundle escaping =>
        .of_keeps ((preserved_grows id).record bundle escaping) fun s abort s' haborts =>
    (aborts_record haborts).1
  enclosed := by
    intro enter steps steps' henter h
    refine .bind (.same Grows.refl) fun outer => .bind (.same fun s => Grows.frame s _) fun _ =>
      .bind h fun _ => ?_
    exact .bind (.same Grows.refl) fun inner => .bind (.same fun s => Grows.frame s _) fun _ =>
      .same Grows.refl

/-- The analyses of a node are related if those of its operands are, and if halting at its own
moments is. -/
theorem related_analyzeUntil {K : ∀ {α : Type}, FlowM α → FlowM α → Prop}
    (h : Respected K id) {reached reached' : Moment → Bool} {depth depth' : Nat}
    (hhalting : ∀ moment, moment = .before id ∨ moment = .after id →
      ∀ {step step' : FlowM Unit}, K step step' →
      K (if reached moment then throw halt else step)
      (if reached' moment then throw halt else step'))
    (hrec : ∀ node, env.node id = .ok node → ∀ position, ∀ child ∈ node.expr.children,
      K (analyzeUntil env reached depth position child)
      (analyzeUntil env reached' depth' position child))
    (position : Position) :
    K (analyzeUntil env reached (depth + 1) position id)
    (analyzeUntil env reached' (depth' + 1) position id) := by
  refine h.bind (h.flowOf? id) fun flow? => ?_
  split
  · exact h.pure _
  · refine hhalting (.before id) (.inl rfl) ?_
    refine h.liftThen fun node hnode => h.bind (h.rule hnode (hrec node hnode) position) ?_
    exact fun _ => hhalting (.after id) (.inr rfl) (h.pure ())

/-- The analysis that is halted at certain moments goes on where it would be halted at others
before. -/
theorem resumes_analyzeUntil (env : Env) {reached reached' : Moment → Bool}
    (hreached : ∀ moment, reached' moment = true → reached moment = true) (depth : Nat)
    (position : Position) (id : NodeId) : Resumes (analyzeUntil env reached depth position id)
    (analyzeUntil env reached' depth position id) := by
  induction depth generalizing position id with
  | zero => exact (respected_resumes id).throw _
  | succ depth ih =>
    refine related_analyzeUntil (respected_resumes id) (fun moment _ step step' hstep => ?_)
      (fun _ _ position child _ => ih position child) position
    split
    · split
      · exact (respected_resumes id).throw _
      · exact .halted hstep.grows
    · rename_i hfirst
      rw [if_neg fun hsecond => hfirst (hreached moment hsecond)]
      exact hstep

/-- What is known where an analysis is halted is known at its end. -/
theorem grows_of_halts {reached : Moment → Bool} {depth : Nat} {position : Position}
    (hhalt : Halts (analyzeUntil env reached depth position id) s t)
    (hrun : Runs (analyzeNode env depth position id) s () s') : Grows t s' := by
  rw [← analyzeUntil_never] at hrun
  rw [← ending_of_runs hrun]
  exact (resumes_analyzeUntil env (by simp) depth position id).grows_of_halts hhalt

section Function

variable {function : Function} {reached reached' : Moment → Bool}

theorem resumes_analyzeBody
    (hreached : ∀ moment, reached' moment = true → reached moment = true) :
    Resumes (analyzeBody env function reached) (analyzeBody env function reached') :=
  (respected_resumes function.body).bind
      ((respected_resumes function.body).declareParameters env _) fun _ =>
    resumes_analyzeUntil env hreached _ _ _

/-- What is known at a moment is known where the analysis of the function ends, whatever it ends
with. -/
theorem grows_ending_of_halts (hhalt : Halts (analyzeBody env function reached) s t) :
    Grows t (ending (analyzeFunction env function) s) := by
  have h := respected_resumes function.body
  have hresumes : Resumes (analyzeBody env function reached >>= fun _ => do
      unless function.returns.isVoid do
        checkReturn env function) (analyzeFunction env function) := by
    unfold analyzeBody analyzeFunction
    rw [bind_assoc, ← analyzeUntil_never]
    refine h.bind (h.declareParameters env _) fun _ =>
      h.bind (resumes_analyzeUntil env (by simp) _ _ _) fun _ => ?_
    split
    · exact h.pure _
    · exact h.checkReturn env function
  exact hresumes.grows_of_halts (halts_bind_iff.2 (.inl hhalt))

end Function

end Regions.Flow
