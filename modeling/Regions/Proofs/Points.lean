import Regions.Proofs.Programs
import Regions.Proofs.Transitions.Control

/-!
# Points of an analysis

A point of the analysis of a function is a state that it passes by: when it comes to a node without
a result, when a node has got its result, and where it ends, early or not.

* `Moment`, `analyzeUntil`: an analysis that is halted at certain moments;
* `PassesBy`: the analysis of a function is in a state at a moment;
* `Point`: all states of the analysis of a function that are looked at;
* `Traverses`: the nodes that an analysis comes to, in their positions;
* `Point.inside`: every point is come by through transitions;
* `exists_of_returnEscape`: where data escapes from a function, its body is done.
-/

namespace Regions.Flow

variable {id : NodeId} {depth : Nat} {position : Position}

/-! ## Moments -/

/-- A moment of an analysis. -/
inductive Moment
  /-- A node is come to that has no result. -/
  | before (id : NodeId)
  /-- A node has just got its result. -/
  | after (id : NodeId)
  deriving DecidableEq, Repr

/-- Analyses a node as `analyzeNode` does, but is halted at certain moments. -/
def analyzeUntil (env : Env) (reached : Moment → Bool) : Nat → Recur
  | 0, _, _ => throw (.fault .cyclicBody)
  | depth + 1, position, id => do
      unless (← flowOf? id).isSome do
        if reached (.before id) then
          throw halt
        let node ← env.node id
        rule env (analyzeUntil env reached depth) position id node.expr
        if reached (.after id) then
          throw halt

/-- The analysis of a function up to certain moments, without what comes after the body. -/
def analyzeBody (env : Env) (function : Function) (reached : Moment → Bool) : FlowM Unit := do
  declareParameters env function.parameters
  analyzeUntil env reached env.owner.depth .value function.body

/-- In the analysis of the function, with `context` known before, the moment comes in state `s`. -/
def PassesBy (env : Env) (function : Function) (context : Context) (moment : Moment) (s : State) :
    Prop :=
  Halts (analyzeBody env function (· = moment)) (.start context env.owner.nodes.size) s

/-- Analyses a node as `analyzeNode` does, but is halted when it comes to the node `stop` before
that has a result. -/
def analyzeUpTo (env : Env) (stop : NodeId) : Nat → Recur
  | 0, _, _ => throw (.fault .cyclicBody)
  | depth + 1, position, id => do
      unless (← flowOf? id).isSome do
        if id = stop then
          throw halt
        let node ← env.node id
        rule env (analyzeUpTo env stop depth) position id node.expr

/-- In the analysis of the function, with `context` known before, the node is come to in state
`s`. -/
def ComesTo (env : Env) (function : Function) (context : Context) (id : NodeId) (s : State) :
    Prop :=
  Halts (do
    declareParameters env function.parameters
    analyzeUpTo env id env.owner.depth .value function.body) (.start context env.owner.nodes.size) s

/-- A state of the analysis of the function: at some moment, or where the analysis ends. -/
inductive Point (env : Env) (function : Function) (context : Context) : State → Prop
  | passes {moment : Moment} {s : State} (h : PassesBy env function context moment s) :
      Point env function context s
  | ends {s : State}
      (h : Runs (analyzeFunction env function) (.start context env.owner.nodes.size) () s) :
      Point env function context s
  | aborts {abort : Abort} {s : State}
      (h : Aborts (analyzeFunction env function) (.start context env.owner.nodes.size) abort s) :
      Point env function context s

theorem analyzeUntil_never (env : Env) : analyzeUntil env (fun _ => false) = analyzeNode env := by
  funext depth
  induction depth with
  | zero => rfl
  | succ depth ih =>
    funext position id
    simp [analyzeUntil, analyzeNode, ih]

theorem analyzeUntil_before (env : Env) (stop : NodeId) :
    analyzeUntil env (· = .before stop) = analyzeUpTo env stop := by
  funext depth
  induction depth with
  | zero => rfl
  | succ depth ih =>
    funext position id
    simp [analyzeUntil, analyzeUpTo, ih]

/-- A node that is come to is one whose moment comes. -/
theorem ComesTo.passesBy {env : Env} {function : Function} {context : Context} {s : State}
    (h : ComesTo env function context id s) : PassesBy env function context (.before id) s := by
  unfold PassesBy analyzeBody
  rw [analyzeUntil_before]
  exact h

theorem analyses_analyzeUntil (env : Env) (reached : Moment → Bool) :
    Analyses env (analyzeUntil env reached) where
  zero := by
    intro position id s u s' h
    simp [analyzeUntil] at h
  succ := by
    intro depth position id s u s' h
    simp only [analyzeUntil, runs_bind_iff, runs_flowOf?_iff, runs_ite_iff, runs_pure_iff,
      runs_lift_iff, runs_throw_iff, and_false, false_or, false_and, exists_false] at h
    obtain ⟨flow?, _, ⟨-, rfl⟩,
      ⟨-, -, rfl⟩ | ⟨-, -, node, _, ⟨hnode, rfl⟩, _, _, hrule, -, -, rfl⟩⟩ := h
    · exact .inl rfl
    · exact .inr ⟨node, hnode, hrule⟩

/-! ## The nodes of an analysis -/

/-- The analysis of some nodes as values comes to the node in the position. -/
inductive Traverses (env : Env) (roots : List NodeId) : Position → NodeId → Prop
  | root {id : NodeId} (h : id ∈ roots) : Traverses env roots .value id
  | use {position : Position} {id : NodeId} {node : Node} {operand : Position × NodeId}
      (h : Traverses env roots position id) (hnode : env.node id = .ok node)
      (hoperand : operand ∈ node.expr.uses position) : Traverses env roots operand.1 operand.2

/-- The analysis of some nodes as values, in a function that was entered before. -/
def Setting.ofNodes (env : Env) (roots : List NodeId) : Setting :=
  ⟨env, [], Traverses env roots⟩

/-- The analysis of a function. -/
def Setting.ofFunction (env : Env) (function : Function) : Setting :=
  ⟨env, function.parameters, Traverses env [function.body]⟩

/-- Some analysis with an environment. -/
def Setting.anywhere (env : Env) (parameters : List Parameter) : Setting :=
  ⟨env, parameters, fun _ _ => True⟩

variable {X : Setting} {p₀ p p' : Progress X} {o s s' : State} {H : Watch}

/-- What is known where an analysis comes to a node is known where it comes to the operands. -/
def Watch.Guides (H : Watch) (X : Setting) : Prop :=
  ∀ position id node, X.visits position id → X.env.node id = .ok node →
    ∀ before use after s s',
    node.expr.uses position = before ++ use :: after → H.arrives position id s →
    Onward X.env H node before s s' → H.arrives use.1 use.2 s'

/-- An analysis that is only watched where it is halted. -/
abbrev Watch.halting (halts : State → Prop) : Watch := ⟨halts, fun _ _ _ => True, True⟩

theorem Watch.guides_halting (halts : State → Prop) (X : Setting) :
    (Watch.halting halts).Guides X :=
  fun _ _ _ _ _ _ _ _ _ _ _ _ _ => trivial

/-- Operands come before the nodes that use them. -/
def Env.Ordered (env : Env) : Prop :=
  ∀ id node, env.node id = .ok node → ∀ child ∈ node.expr.children, child.index < id.index

/-- From the node on, an analysis does not go deeper than this. -/
structure Env.Bounds (env : Env) (depth : Nat) (id : NodeId) : Prop where
  ordered : env.Ordered
  pos : 0 < depth
  lt : ∀ node, env.node id = .ok node → id.index < depth

theorem Env.Bounds.child {env : Env} {child : NodeId} {node : Node} (h : env.Bounds (depth + 1) id)
    (hnode : env.node id = .ok node) (hchild : child ∈ node.expr.children) :
    env.Bounds depth child := by
  have hid := h.lt node hnode
  have hlt := h.ordered id node hnode child hchild
  exact ⟨h.ordered, by omega, fun _ _ => by omega⟩

/-- The analysis of a node only makes transitions, whatever moments it is halted at. Only the
operands of the nodes that it goes on to must be visited. -/
theorem passable_analyzeUntil (reached : Moment → Bool) (hguides : H.Guides X)
    (hclosed : ∀ position id node, X.visits position id → reached (.before id) = false →
      X.env.node id = .ok node → ∀ use ∈ node.expr.uses position, X.visits use.1 use.2)
    (hbefore : ∀ position id s, X.visits position id → reached (.before id) = true →
      s.flowAt id = none → H.halts s)
    (hafter : ∀ position id node depth s s', X.visits position id →
      reached (.after id) = true → X.env.node id = .ok node →
      Runs (rule X.env (analyzeUntil X.env reached depth) position id node.expr) s
      () s' → H.halts s')
    (depth : Nat) (hdepth : H.deep ∨ X.env.Bounds depth id) (hvisits : X.visits position id) :
    Passable X H (analyzeUntil X.env reached depth) position id := by
  induction depth generalizing position id with
  | zero => exact fun p s hp _ =>
      .fault (.deep (hdepth.resolve_right fun hbounds => hbounds.pos.false))
  | succ depth ih =>
    intro p s hp harrives
    refine .bind (Q := fun flow? p' s' => flow? = s.flowAt id ∧ p = p' ∧ s = s')
      (.flowOf? (fun hrange => .range hvisits hrange) ⟨rfl, rfl, rfl⟩) ?_
    rintro flow? _ _ ⟨rfl, rfl, rfl⟩
    split
    · rename_i hsome
      have hdone := Option.isSome_iff_ne_none.1 hsome
      exact .pure ⟨hp, hdone, fun hnone => absurd hnone hdone⟩
    · rename_i hnone
      have hfresh : s.flowAt id = none := by simpa using hnone
      by_cases hreached : reached (.before id) = true
      · rw [if_pos hreached]
        refine .bind (Q := fun _ _ _ => False)
          (.halted hp (hbefore _ id s hvisits hreached hfresh)) ?_
        exact fun _ _ _ h => h.elim
      · rw [if_neg hreached]
        refine .liftThen (fun fault hfault => .node hvisits hfault) fun node hnode => ?_
        have hruling : Ruling X H (analyzeUntil X.env reached depth) position id node := {
          visited := hvisits
          found := hnode
          operands := fun use huse =>
            ih (hdepth.imp_right fun hbounds =>
                hbounds.child hnode (Expr.mem_children_of_mem_uses huse))
              (hclosed position id node hvisits (Bool.eq_false_iff.2 hreached) hnode use huse)
          records := fun use _ s u s' hrun S hS hmem =>
            (analyses_analyzeUntil X.env reached).recordsOnly hS depth use.1 hmem s u s' hrun
          guided := hguides position id node hvisits hnode }
        refine .bind (hruling.rule ⟨hp, fun _ => hfresh⟩ harrives).andRuns
          fun _ p₁ s₁ ⟨hp₁, hrun⟩ => ?_
        split
        · rename_i hreached
          exact .halted hp₁.1 (hafter _ id node depth s s₁ hvisits hreached hnode hrun)
        · refine .pure ⟨hp₁.1, hp₁.2.1, fun _ found hfound => ?_⟩
          cases hnode.symm.trans hfound
          exact hp₁.2.2

theorem closed_traverses (env : Env) (parameters : List Parameter) (roots : List NodeId) :
    Setting.Closed ⟨env, parameters, Traverses env roots⟩ :=
  fun _ _ _ hvisits hnode _ hoperand => .use hvisits hnode hoperand

/-! ## Functions -/

theorem exists_runs_declareParameterMember (path : Path) (field : Field) (s : State) :
    ∃ s', Runs (declareParameterMember path field) s () s' := by
  unfold declareParameterMember
  simp only [runs_bind_iff, runs_newRoot_iff, runs_ite_iff, runs_store_iff, runs_declare_iff]
  by_cases htracked : field.tracked = true
  · exact ⟨_, _, _, ⟨rfl, rfl⟩, .inl ⟨htracked, _, _, ⟨rfl, rfl⟩, (), _, rfl, rfl⟩⟩
  · exact ⟨_, _, _, ⟨rfl, rfl⟩, .inr ⟨htracked, rfl⟩⟩

theorem Traces.declareParameters (hp : p.task = none) :
    Traces p₀ o p (declareParameters X.env X.parameters) s H fun _ p' _ => p'.task = none := by
  refine .forM (fun _ p' _ => p'.task = none) hp
    fun before parameter after hsplit p₁ s₁ hp₁ => ?_
  have hmem : parameter ∈ X.parameters := by simp [hsplit]
  refine .liftThen (fun fault hfault => .parameter hmem hfault) fun fields hfields =>
    .forM (fun _ p' _ => p'.task = none) hp₁ fun before' field after' hsplit' p₂ s₂ hp₂ =>
      ?_
  obtain ⟨s₃, hrun⟩ := exists_runs_declareParameterMember parameter.path field s₂
  have hp₂' : p₂ = ⟨none, p₂.joins⟩ := by rw [← hp₂]
  rw [hp₂']
  exact .of_step hrun (.parameter hmem hfields (by simp [hsplit']) hrun) rfl

theorem Traces.checkReturn {function : Function} (hvisits : X.visits .value function.body)
    (hp : p.task = none) (hdone : s.flowAt function.body ≠ none) (hH : H.halts s) :
    Traces p₀ o p (checkReturn X.env function) s H fun _ p' s' =>
      p'.task = none ∧ s'.flowAt function.body ≠ none := by
  refine .bundleThen hdone fun flow hflow => .getThen ?_
  have hstores : Traces p₀ o p (flow.bundle.tracked.forM fun value => Flow.store value .heap) s H
      fun _ p' s' => p'.task = none ∧ s'.flowAt function.body ≠ none := by
    refine (Traces.forM (fun _ p' s' => p'.task = none ∧ ∀ id, s'.flowAt id = s.flowAt id)
      ⟨hp, fun _ => rfl⟩ fun before value after hsplit p₁ s₁ hI => ?_).weaken
      fun _ _ _ hI => ⟨hI.1, hI.2 _ ▸ hdone⟩
    have hp₁ : p₁ = ⟨none, p₁.joins⟩ := by rw [← hI.1]
    rw [hp₁]
    exact .of_step (a := ()) (runs_store_iff.2 rfl) (.returned _ ((hI.2 _).trans hflow)
      (by simp [hsplit])) ⟨rfl, hI.2⟩
  dsimp only
  split
  · exact hstores
  · refine .escapingThen hdone fun _ _ =>
      .liftThen (fun fault hfault => .node hvisits hfault) fun node _ => ?_
    refine .bind (Q := fun _ _ _ => False)
      (fun hsteps => ⟨p, .here hsteps, fun _ => ⟨hp, hH⟩, ?_⟩) fun _ _ _ h => h.elim
    exact fun _ hfault => by cases hfault

theorem passable_analyzeNode (hguides : H.Guides X) (hclosed : X.Closed) (depth : Nat)
    (hdepth : H.deep ∨ X.env.Bounds depth id) (hvisits : X.visits position id) :
    Passable X H (analyzeNode X.env depth) position id := by
  rw [← analyzeUntil_never]
  exact passable_analyzeUntil _ hguides (fun _ _ _ hvisits _ => hclosed _ _ _ hvisits) (by simp)
    (by simp) depth hdepth hvisits

theorem steps_analyzeNode (hclosed : X.Closed) {depth : Nat} (hvisits : X.visits position id)
    (hrun : Runs (analyzeNode X.env depth position id) s () s') :
    ∃ p', Steps X ⟨none, []⟩ s p' s' := by
  have htraces := passable_analyzeNode (Watch.guides_halting (fun _ => True) X) hclosed depth
    (.inl trivial) hvisits ⟨none, []⟩ s rfl trivial (.refl _ _)
  rw [show analyzeNode X.env depth position id s = .ok () s' from hrun] at htraces
  obtain ⟨p', hsteps, -⟩ := htraces
  exact ⟨p', hsteps⟩

theorem reframes_analyzeNode (hclosed : X.Closed) {depth : Nat} (hvisits : X.visits position id)
    (hrun : Runs (analyzeNode X.env depth position id) s () s') : Reframes X s s' := by
  obtain ⟨p', hsteps⟩ := steps_analyzeNode hclosed hvisits hrun
  exact (hsteps.reframes (Progress.fresh_of_task_eq_none rfl)).2

section Function

variable {env : Env} {function : Function} {context : Context}

/-- The body of a function is not analysed deeper than it has nodes. -/
theorem Env.Ordered.bounds (h : env.Ordered) (id : NodeId) : env.Bounds env.owner.depth id where
  ordered := h
  pos := Nat.succ_pos _
  lt := fun _ hnode => Nat.lt_succ_of_lt (Env.lt_size_of_node hnode)

theorem traces_analyzeFunction (env : Env) (function : Function)
    {p : Progress (.ofFunction env function)} (hp : p.task = none)
    (hguides : H.Guides (.ofFunction env function))
    (hdepth : H.deep ∨ env.Bounds env.owner.depth function.body)
    (harrives : ∀ s', Runs (declareParameters env function.parameters) s () s' →
      H.arrives .value function.body s') (hH : ∀ s, H.halts s) :
    Traces p s p (analyzeFunction env function) s H fun _ p' s' =>
      p'.task = none ∧ s'.flowAt function.body ≠ none := by
  have hclosed := closed_traverses env function.parameters [function.body]
  have hvisits : Traverses env [function.body] .value function.body := .root (by simp)
  refine .bind (Traces.declareParameters hp).andRuns fun _ p₁ s₁ hdeclared => ?_
  refine .bind (passable_analyzeNode hguides hclosed _ hdepth hvisits p₁ s₁ hdeclared.1
    (harrives s₁ hdeclared.2)).embed fun _ p₂ s₂ hp₂ => ?_
  split
  · exact .pure ⟨hp₂.1, hp₂.2.1⟩
  · exact .checkReturn hvisits hp₂.1 hp₂.2.1 (hH s₂)

theorem traces_analyzeBody (env : Env) (function : Function) (reached : Moment → Bool)
    (halts : State → Prop) {p : Progress (.ofFunction env function)} (hp : p.task = none)
    (hbefore : ∀ position id s, Traverses env [function.body] position id →
      reached (.before id) = true → s.flowAt id = none → halts s)
    (hafter : ∀ position id node depth s s', Traverses env [function.body] position id →
      reached (.after id) = true → env.node id = .ok node →
      Runs (rule env (analyzeUntil env reached depth) position id node.expr) s () s' → halts s') :
    Traces p s p (analyzeBody env function reached) s (.halting halts) fun _ p' _ =>
    p'.task = none := by
  have hclosed := closed_traverses env function.parameters [function.body]
  refine .bind (.declareParameters hp) fun _ p₁ s₁ hp₁ => ?_
  exact (passable_analyzeUntil reached (Watch.guides_halting _ _)
    (fun _ _ _ hvisits _ => hclosed _ _ _ hvisits)
    hbefore hafter _ (.inl trivial) (.root (by simp)) p₁ s₁ hp₁ trivial).embed.weaken
      fun _ _ _ hends => hends.1

/-- Where the step has run, it has made transitions. -/
theorem Traces.exists_steps {X : Setting} {p : Progress X} {step : FlowM Unit}
    {Q : Unit → Progress X → State → Prop} (h : Traces p s p step s H Q)
    (hrun : Runs step s () s') : ∃ p', Q () p' s' ∧ Steps X p s p' s' := by
  have hstep := h (.refl p s)
  rw [hrun] at hstep
  obtain ⟨p', hsteps, hp'⟩ := hstep
  exact ⟨p', hp', hsteps⟩

theorem ends_of_analyzeNode (parameters : List Parameter)
    (hrun : Runs (analyzeNode env depth position id) s () s') :
    ∃ p', (p'.task = none ∧ s'.flowAt id ≠ none) ∧ Steps
    (.anywhere env parameters) ⟨none, []⟩ s p' s' := by
  obtain ⟨p', hends, hsteps⟩ := (passable_analyzeNode (X := .anywhere env parameters)
    (Watch.guides_halting (fun _ => True) _) (fun _ _ _ _ _ _ _ => trivial) depth
      (.inl trivial) trivial
    ⟨none, []⟩ s rfl trivial).exists_steps hrun
  exact ⟨p', ⟨hends.1, hends.2.1⟩, hsteps⟩

theorem steps_of_analyzeNode (parameters : List Parameter)
    (hrun : Runs (analyzeNode env depth position id) s () s') :
    ∃ p', p'.task = none ∧ Steps (.anywhere env parameters) ⟨none, []⟩ s p' s' := by
  obtain ⟨p', hends, hsteps⟩ := ends_of_analyzeNode parameters hrun
  exact ⟨p', hends.1, hsteps⟩

/-- A node that was analysed has its result. -/
theorem exists_flowAt_of_analyzeNode (hrun : Runs (analyzeNode env depth position id) s () s') :
    ∃ flow, s'.flowAt id = some flow := by
  obtain ⟨_, hends, -⟩ := ends_of_analyzeNode [] hrun
  exact Option.ne_none_iff_exists'.1 hends.2

theorem steps_of_declareParameters
    (hrun : Runs (declareParameters env function.parameters) s () s') :
    ∃ p', p'.task = none ∧ Steps (.anywhere env function.parameters) ⟨none, []⟩ s p' s' :=
  (Traces.declareParameters (X := .anywhere env function.parameters) (H := .halting fun _ => True)
    rfl).exists_steps
    hrun

/-- The analysis of a function only makes transitions. -/
theorem passes_through (env : Env) (function : Function) {p : Progress (.ofFunction env function)}
    (hp : p.task = none) : Traces p s p (analyzeFunction env function) s (.halting fun _ => True)
      fun _ p' s' => p'.task = none ∧ s'.flowAt function.body ≠ none :=
  traces_analyzeFunction env function hp (Watch.guides_halting _ _) (.inl trivial)
    (fun _ _ => trivial) fun _ => trivial

theorem steps_of_analyzeFunction (hrun : Runs (analyzeFunction env function) s () s') :
    ∃ p', p'.task = none ∧ Steps (.ofFunction env function) ⟨none, []⟩ s p' s' := by
  obtain ⟨p', hends, hsteps⟩ :=
    (passes_through env function (p := ⟨none, []⟩) rfl).exists_steps hrun
  exact ⟨p', hends.1, hsteps⟩

theorem PassesBy.inside {moment : Moment} (h : PassesBy env function context moment s) :
    ∃ p', p'.task = none ∧
      Inside (.ofFunction env function) ⟨none, []⟩
      (.start context env.owner.nodes.size) p' s := by
  have htraces := traces_analyzeBody env function (· = moment) (fun _ => True) rfl
    (fun _ _ _ _ _ _ => trivial) (fun _ _ _ _ _ _ _ _ _ _ => trivial)
    (.refl ⟨none, []⟩ (.start context env.owner.nodes.size))
  rw [h] at htraces
  obtain ⟨p', hinside, hhalt⟩ := htraces
  exact ⟨p', (hhalt.leaves trivial).1, hinside⟩

/-- A node that is come to is one of the body, and has no result. -/
theorem PassesBy.visits_and_flowAt (h : PassesBy env function context (.before id) s) :
    (∃ position, Traverses env [function.body] position id) ∧ s.flowAt id = none := by
  have htraces := traces_analyzeBody env function (· = .before id)
    (fun s => (∃ position, Traverses env [function.body] position id) ∧ s.flowAt id = none) rfl
    (fun position other _ hvisits hreached hfresh => by
      cases of_decide_eq_true hreached
      exact ⟨⟨position, hvisits⟩, hfresh⟩)
    (fun _ _ _ _ _ _ _ hreached => by simp at hreached)
    (.refl ⟨none, []⟩ (.start context env.owner.nodes.size))
  rw [h] at htraces
  obtain ⟨p', -, hhalt⟩ := htraces
  exact (hhalt.leaves trivial).2

/-- Every point is come by through transitions. -/
theorem Point.inside (h : Point env function context s) :
    ∃ p', Inside (.ofFunction env function) ⟨none, []⟩
    (.start context env.owner.nodes.size) p' s := by
  have htraces := passes_through env function (p := ⟨none, []⟩) rfl
    (.refl _ (.start context env.owner.nodes.size))
  cases h with
  | passes h =>
    obtain ⟨p', -, hinside⟩ := h.inside
    exact ⟨p', hinside⟩
  | ends h =>
    rw [h] at htraces
    obtain ⟨p', hsteps, -⟩ := htraces
    exact ⟨p', .here hsteps⟩
  | aborts h =>
    rw [h] at htraces
    obtain ⟨p', hinside, -⟩ := htraces
    exact ⟨p', hinside⟩

/-! ## What is returned -/

theorem Traces.not_leaves {α : Type} {p₀ : Progress X} {o s' : State} {step : FlowM α}
    {Q : α → Progress X → State → Prop}
    (h : Traces p₀ o p step s (.halting fun _ => False) Q) (hsteps : Steps X p₀ o p s)
    {abort : Abort} (haborts : Aborts step s abort s') : ¬ abort.Leaves := by
  intro hleaves
  have hstep := h hsteps
  rw [show step s = .error abort s' from haborts] at hstep
  obtain ⟨p', -, hfalse⟩ := hstep
  exact (hfalse.leaves hleaves).2

theorem not_aborts_forM_store {values : List Lifetime} {container : Lifetime} {abort : Abort}
    {s' : State} : ¬ Aborts (values.forM fun value => store value container) s abort s' := by
  induction values generalizing s with
  | nil => exact not_aborts_pure
  | cons value values ih =>
    change ¬ Aborts
      (store value container >>= fun _ => values.forM fun value => store value container) s abort s'
    rw [aborts_bind_iff]
    rintro (hstore | ⟨_, s₁, -, hrest⟩)
    · exact not_aborts_modifyContext hstore
    · exact ih hrest

/-- The check of what is returned tells what it has found, and leaves the state as it is. -/
theorem aborts_checkReturn {name : Path} {span : Span} {roots : List Lifetime}
    {captured : List Path} {s' : State} (hdone : s.flowAt function.body ≠ none)
    (h : Aborts (checkReturn env function) s
      (.violation (.returnEscape name span roots captured)) s') :
    s' = s ∧ ∃ flow, s.flowAt function.body = some flow ∧
      roots = (returnRoots s.context.graph flow.bundle).toList ∧
      captured = (heldVariables s.context.captures flow.escaping).toList := by
  obtain ⟨flow, hflow⟩ := Option.ne_none_iff_exists'.1 hdone
  have hbundle : Runs (bundleOf function.body) s flow.bundle s :=
    runs_bundleOf_iff.2 ⟨flow, hflow, rfl, rfl⟩
  have hescaping : Runs (escapingOf function.body) s flow.escaping s :=
    runs_escapingOf_iff.2 ⟨flow, hflow, rfl, rfl⟩
  rw [checkReturn, aborts_bind_iff] at h
  rcases h with habort | ⟨_, _, hrun, h⟩
  · cases habort.symm.trans hbundle
  cases hrun.symm.trans hbundle
  rw [aborts_bind_iff] at h
  rcases h with habort | ⟨_, _, hget, h⟩
  · exact absurd habort not_aborts_get
  obtain ⟨rfl, rfl⟩ := runs_get_iff.1 hget
  dsimp only at h
  split at h
  · exact absurd h not_aborts_forM_store
  · rw [aborts_bind_iff] at h
    rcases h with habort | ⟨_, _, hrun, h⟩
    · cases habort.symm.trans hescaping
    cases hrun.symm.trans hescaping
    simp only [aborts_bind_iff, aborts_lift_iff, aborts_throw_iff, runs_lift_iff,
      runs_throw_iff, false_and, exists_false, or_false] at h
    rcases h with ⟨_, -, hfault, -⟩ | ⟨node, _, ⟨-, rfl⟩, hviolation, rfl⟩
    · cases hfault
    · cases hviolation
      exact ⟨rfl, flow, hflow, rfl, rfl⟩

/-- Data escapes from a function only where its body is done. -/
theorem exists_of_returnEscape {name : Path} {span : Span} {roots : List Lifetime}
    {captured : List Path}
    (h : Aborts (analyzeFunction env function) (.start context env.owner.nodes.size)
      (.violation (.returnEscape name span roots captured)) s) :
    ∃ (p : Progress (.ofFunction env function)) (flow : NodeFlow), p.task = none ∧
      Steps (.ofFunction env function) ⟨none, []⟩ (.start context env.owner.nodes.size) p s ∧
      s.flowAt function.body = some flow ∧
      roots = (returnRoots s.context.graph flow.bundle).toList ∧
      captured = (heldVariables s.context.captures flow.escaping).toList := by
  have hbody : Traces ⟨none, []⟩ (.start context env.owner.nodes.size) ⟨none, []⟩ (do
      declareParameters env function.parameters
      analyzeNode env env.owner.depth .value function.body) (.start context env.owner.nodes.size)
      (.halting fun _ => False) fun _ (p' : Progress (.ofFunction env function)) s' =>
        p'.task = none ∧ s'.flowAt function.body ≠ none := by
    refine .bind (.declareParameters rfl) fun _ p₁ s₁ hp₁ => ?_
    exact (passable_analyzeNode (Watch.guides_halting _ _)
      (closed_traverses env function.parameters [function.body])
      _ (.inl trivial) (.root (by simp)) p₁ s₁ hp₁ trivial).embed.weaken fun _ _ _ hends =>
        ⟨hends.1, hends.2.1⟩
  have hstart :=
    Steps.refl (X := .ofFunction env function) ⟨none, []⟩ (.start context env.owner.nodes.size)
  rw [analyzeFunction, ← bind_assoc, aborts_bind_iff] at h
  rcases h with habort | ⟨_, s₁, hruns, habort⟩
  · exact absurd trivial (hbody.not_leaves hstart habort)
  have hsteps := hbody hstart
  rw [hruns] at hsteps
  obtain ⟨p, hsteps, hidle, hdone⟩ := hsteps
  split at habort
  · exact absurd habort not_aborts_pure
  · obtain ⟨rfl, flow, hflow, hroots, hcaptured⟩ := aborts_checkReturn hdone habort
    exact ⟨p, flow, hidle, hsteps, hflow, hroots, hcaptured⟩

end Function

section Computed

variable {env : Env} {function : Function} {context : Context} {P : State → Prop}
  [∀ s, Decidable (P s)]

instance decidableExistsComesTo : Decidable (∃ s, ComesTo env function context id s ∧ P s) :=
  decidableExistsHalts

instance decidableExistsPassesBy {moment : Moment} :
    Decidable (∃ s, PassesBy env function context moment s ∧ P s) :=
  decidableExistsHalts

end Computed

/-- The program is accepted, its last part is its only function, and in the analysis of the function
the node is come to in a certain state. -/
def AcceptsAt (items : List Item) (id : NodeId) (P : Env → State → Prop) : Prop :=
  Accepts items {} fun assembly _ =>
    ∃ owner ∈ assembly.program.owners, assembly.program.Only owner ∧
    ∃ function, owner.kind = .function function ∧
      ∃ s, ComesTo (.ofFunction assembly.declarations {} owner function) function
      .initial id s ∧ P (.ofFunction assembly.declarations {} owner function) s

instance {items : List Item} {P : Env → State → Prop} [∀ env s, Decidable (P env s)] :
    Decidable (AcceptsAt items id P) := by
  delta AcceptsAt
  infer_instance

/-- A function of the program is in a certain state at the moment. -/
def PassesAt (items : List Item) (options : Options) (moment : Moment)
    (P : Program.Assembly → Owner → Function → State → Prop) : Prop :=
  ∃ assembly, Program.ofItems items = .ok assembly ∧ ∃ owner ∈ assembly.program.owners,
    ∃ function, owner.kind = .function function ∧
      ∃ s, PassesBy (.ofFunction assembly.declarations options owner function) function
      .initial moment s ∧ P assembly owner function s

instance {items : List Item} {options : Options} {moment : Moment}
    {P : Program.Assembly → Owner → Function → State → Prop}
    [∀ assembly owner function s, Decidable (P assembly owner function s)] :
    Decidable (PassesAt items options moment P) := by
  delta PassesAt
  infer_instance

end Regions.Flow
