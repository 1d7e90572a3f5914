import Regions.Proofs.Bindings

/-!
# Attested results

A node gets its result from its own rule, once its operands have theirs, and keeps it.

* `Inside.flows`: what every rule records of what its operands have, all results have;
* `Attested`: the result was recorded by the rule of its node, in an earlier state;
* `Inside.attested`: all results are attested.
-/

namespace Regions.Flow

variable {X : Setting} {p p' : Progress X} {s s' : State}

/-- Nothing that was known or captured is forgotten. -/
structure Retains (s s' : State) : Prop where
  grows : Grows s s'
  captures : ∀ holder captured, s.context.captures.held.Adj holder captured →
    s'.context.captures.held.Adj holder captured

namespace Retains

theorem of_captures_eq (hgrows : Grows s s') (h : s'.context.captures = s.context.captures) :
    Retains s s' :=
  ⟨hgrows, fun _ _ hadj => h ▸ hadj⟩

end Retains

theorem Step.retains (h : Step X p s p' s') : Retains s s' := by
  have hgrows := h.grows
  cases h with
  | note captures heapWrites hlogged hcaptures => exact ⟨hgrows, hcaptures⟩
  | parameter _ _ _ hrun =>
    refine .of_captures_eq hgrows ?_
    obtain ⟨-, rfl⟩ | ⟨-, rfl⟩ := runs_declareParameterMember hrun <;> rfl
  | _ => exact .of_captures_eq hgrows rfl

/-! ## Results of all nodes -/

/-- What every rule records of what its operands have lasts for all results, if it is kept. -/
theorem lasts_flows {K : Progress X → State → Prop} {F : State → NodeId → NodeFlow → Prop}
    (hkeep : ∀ {s s' id flow}, Retains s s' → F s id flow → F s' id flow)
    (hrecord : ∀ {p s task bundle escaping}, K p s → p.task = some task →
      (∀ id flow, s.flowAt id = some flow → F s id flow) →
      Result X.env s task.id task.node.ty task.position task.node.expr bundle →
      Escapes X.env s task.node.ty task.position task.node.expr escaping →
      F s task.id ⟨bundle, escaping⟩) :
    Lasts X K fun _ s => ∀ id flow, s.flowAt id = some flow → F s id flow := by
  refine .of_flowAt (fun hstep hK hs id flow hid => ?_) fun hgrows hflow hcaptures hs id flow hid =>
    hkeep (.of_captures_eq hgrows hcaptures) (hs id flow (hflow id ▸ hid))
  refine hkeep hstep.retains ?_
  rcases hstep.record_or_flowAt_eq
    with hsame | ⟨task, bundle, escaping, htask, -, hresult, hrun, hescapes⟩
  · exact hs id flow (hsame id ▸ hid)
  · obtain ⟨-, -, -, hflow⟩ := runs_record hrun
    rw [hflow id] at hid
    split at hid
    · rename_i heq
      cases hid
      exact heq ▸ hrecord hK htask hs hresult hescapes
    · exact hs id flow hid

theorem Inside.flows {F : NodeId → Bundle → Prop}
    (hrecord : ∀ (s : State) (task : Task X) (bundle : Bundle), Coherent s →
      (∀ id flow, s.flowAt id = some flow → F id flow.bundle) →
      Result X.env s task.id task.node.ty task.position task.node.expr bundle → F task.id bundle)
    (h : Inside X p s p' s') (hcoherent : Coherent s)
    (hs : ∀ id flow, s.flowAt id = some flow → F id flow.bundle) :
    ∀ id flow, s'.flowAt id = some flow → F id flow.bundle :=
  ((lasts_coherent.and (lasts_flows (F := fun _ id flow => F id flow.bundle) (fun _ hF => hF)
    fun hcoherent _ hs hresult _ =>
      hrecord _ _ _ hcoherent hs hresult)).inside h ⟨hcoherent, hs⟩).2

/-! ## Where results come from -/

theorem HeldBy.later {operand : NodeId} {escaping : PathSet} (h : HeldBy s operand escaping)
    (hgrows : Grows s s') : HeldBy s' operand escaping := by
  obtain ⟨flow, hflow, hheld⟩ := h
  exact ⟨flow, hgrows.recorded _ _ hflow, hheld⟩

theorem CapturedBy.later {operand : NodeId} {holder : Path} (h : CapturedBy s operand holder)
    (hretains : Retains s s') : CapturedBy s' operand holder := by
  obtain ⟨flow, hflow, hcaptured⟩ := h
  exact ⟨flow, hretains.grows.recorded _ _ hflow,
    fun x hx => (hcaptured x hx).imp_right (hretains.captures holder x)⟩

theorem Escapes.later {env : Env} {ty : Ty} {position : Position} {expr : Expr} {escaping : PathSet}
    (h : Escapes env s ty position expr escaping) (hretains : Retains s s') :
    Escapes env s' ty position expr escaping := by
  have hgrows := hretains.grows
  unfold Escapes at h ⊢
  split <;> simp only at h
  · exact h
  · exact h
  · exact fun htracked => (h htracked).later hgrows
  · exact h.later hgrows
  · exact h.later hgrows
  · exact fun htracked field hfield => (h htracked field hfield).later hgrows
  · exact fun hvoid last hlast => (h hvoid last hlast).later hgrows
  · exact fun hvoid htracked => (h hvoid htracked).imp (·.later hgrows) (·.later hgrows)
  · exact h.later hretains
  · obtain ⟨path?, hpath, hcaptured⟩ := h
    exact ⟨path?, hpath, fun path heq => (hcaptured path heq).later hretains⟩
  · trivial

/-- The operands of the node at work have their results. -/
def Progress.Supplied (p : Progress X) (s : State) : Prop :=
  ∀ task, p.task = some task →
    ∀ use ∈ task.node.expr.uses task.position, s.flowAt use.2 ≠ none

theorem Progress.supplied_of_task_eq_none (h : p.task = none) : p.Supplied s := by
  intro task htask
  simp [h] at htask

theorem Step.supplied (h : Step X p s p' s') (hs : p.Supplied s) : p'.Supplied s' := by
  intro task' htask' use huse
  have hkept : s.flowAt use.2 ≠ none → s'.flowAt use.2 ≠ none := h.grows.recorded_ne_none
  cases h with
  | begin task hdone hsince hfresh hoperands =>
    cases htask'
    exact hoperands use huse
  | note | region | expose | store | parameter | returned => exact hkept (hs _ htask' use huse)
  | declared | plain | rebound | hidden | through | skip =>
    cases htask'
    exact hkept (hs _ rfl use huse)
  | record | entered => cases htask'

/-- The result was recorded by the rule of its node, in an earlier state where the operands had
theirs. -/
def Attested (X : Setting) (s : State) (id : NodeId) (flow : NodeFlow) : Prop :=
  ∃ (task : Task X) (s₀ : State), task.id = id ∧ Coherent s₀ ∧ Grows s₀ s ∧
    Result X.env s₀ id task.node.ty task.position task.node.expr flow.bundle ∧
    Escapes X.env s task.node.ty task.position task.node.expr flow.escaping ∧
    ∀ use ∈ task.node.expr.uses task.position, s₀.flowAt use.2 ≠ none

theorem Attested.later {id : NodeId} {flow : NodeFlow} (h : Attested X s id flow)
    (hretains : Retains s s') : Attested X s' id flow := by
  obtain ⟨task, s₀, hid, hcoherent, hgrows, hresult, hescapes, hoperands⟩ := h
  exact ⟨task, s₀, hid, hcoherent, hgrows.trans hretains.grows, hresult,
    hescapes.later hretains, hoperands⟩

/-- Where nothing was at work and no node had a result, all results are attested. -/
theorem Inside.attested (h : Inside X p s p' s') (hcoherent : Coherent s) (htask : p.task = none)
    (hs : ∀ id flow, s.flowAt id = some flow → Attested X s id flow) :
    ∀ id flow, s'.flowAt id = some flow → Attested X s' id flow := by
  have hsupplied : Lasts X (fun _ s => Coherent s) Progress.Supplied :=
    .of_task (fun hstep _ hs => hstep.supplied hs) Progress.supplied_of_task_eq_none
  have hattested : Lasts X (fun p s => Coherent s ∧ p.Supplied s) fun _ s =>
      ∀ id flow, s.flowAt id = some flow → Attested X s id flow :=
    lasts_flows (fun hretains h => h.later hretains) fun hknown htask _ hresult hescapes =>
      ⟨_, _, rfl, hknown.1, .refl _, hresult, hescapes, hknown.2 _ htask⟩
  exact (((lasts_coherent.and hsupplied).and hattested).inside h
    ⟨⟨hcoherent, Progress.supplied_of_task_eq_none htask⟩, hs⟩).2

end Regions.Flow
