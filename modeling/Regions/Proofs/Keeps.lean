import Regions.Proofs.Couplings.Rules

/-!
# What every run of the analysis keeps

A relation between states that is reflexive, transitive and respected by the elementary steps
relates the states before and after every successful run of the analysis.

More generally, a relation between steps that is respected by all ways to build steps relates the
rules of the analysis, for operands whose analyses are related.

* `Context.Extends`: what a step can do to the knowledge about the program, short of a new version
  becoming the current one;
* `Respected K id`: the ways to build steps respect `K`, where `id` is the node that may be
  recorded;
* `Keeps R step`: every successful run of the step is in `R`;
* `Preserved.respected`: this is respected if the elementary steps preserve `R`.
-/

namespace Regions.Flow

variable {R : State → State → Prop} {id : NodeId}

/-- The knowledge about the program grows, and no version becomes the current one. -/
structure Context.Extends (before after : Context) : Prop where
  graph : before.graph.Below after.graph
  roots : ∀ root, root ∈ before.roots → root ∈ after.roots
  exposed : ∀ path, path ∈ before.exposed → path ∈ after.exposed
  rebound : after.rebound = before.rebound
  heapWrites : before.heapWrites <+: after.heapWrites
  nextVersion : before.nextVersion ≤ after.nextVersion

theorem Context.Extends.refl (context : Context) : context.Extends context where
  graph := Outlives.Below.refl _
  roots := fun _ h => h
  exposed := fun _ h => h
  rebound := rfl
  heapWrites := List.prefix_rfl
  nextVersion := Nat.le_refl _

theorem Context.Extends.insertRoot (context : Context) (root : Lifetime) :
    context.Extends { context with roots := context.roots.insert root } :=
  { refl context with roots := fun _ h => Std.ExtTreeSet.mem_insert.2 (.inr h) }

theorem Context.Extends.insertExposed (context : Context) (path : Path) :
    context.Extends { context with exposed := context.exposed.insert path } :=
  { refl context with exposed := fun _ h => Std.ExtTreeSet.mem_insert.2 (.inr h) }

/-- Every successful run of the step is in the relation. -/
def Keeps {α : Type} (R : State → State → Prop) (step : FlowM α) : Prop :=
  ∀ s a s', Runs step s a s' → R s s'

/-- All ways to build steps respect the relation between steps; only the result of `id` may be
recorded. -/
structure Respected (K : ∀ {α : Type}, FlowM α → FlowM α → Prop) (id : NodeId) : Prop where
  pure : ∀ {α : Type} (a : α), K (pure a) (pure a)
  bind : ∀ {α β : Type} {step step' : FlowM α} {next next' : α → FlowM β}, K step step' →
    (∀ a, K (next a) (next' a)) → K (step >>= next) (step' >>= next')
  get : K get get
  throw : ∀ {α : Type} (abort : Abort), K (throw abort : FlowM α) (throw abort)
  modifyContext : ∀ {f : Context → Context},
    (∀ context : Context, context.Extends (f context)) → K (modifyContext f) (modifyContext f)
  declare : ∀ path extent, K (declare path extent) (declare path extent)
  rebind : ∀ path extent, K (rebind path extent) (rebind path extent)
  adopt : ∀ version slot, K (adopt version slot) (adopt version slot)
  record : ∀ bundle escaping, K (record id bundle escaping) (record id bundle escaping)
  enclosed : ∀ {enter : Frame → Frame} {steps steps' : FlowM Unit},
    enter = Frame.child ∨ enter = Frame.loopBody → K steps steps' →
    K (within enter steps) (within enter steps')

/-- The step is related to itself. -/
abbrev Fixed (K : ∀ {α : Type}, FlowM α → FlowM α → Prop) {α : Type} (step : FlowM α) :
    Prop := K step step

/-- As a relation between steps, of which the second one does not matter. -/
def Kept (R : State → State → Prop) {α : Type} (step _step' : FlowM α) : Prop := Keeps R step

/-- The elementary steps preserve the relation between states; only the result of `id` may be
recorded. -/
structure Preserved (R : State → State → Prop) (id : NodeId) : Prop where
  refl : ∀ s, R s s
  trans : ∀ {s₁ s₂ s₃}, R s₁ s₂ → R s₂ s₃ → R s₁ s₃
  context : ∀ s context, s.context.Extends context → R s (s.withContext context)
  frame : ∀ (s : State) frame, R s { s with frame }
  adopt : ∀ version slot, Keeps R (adopt version slot)
  record : ∀ bundle escaping, Keeps R (record id bundle escaping)

theorem Preserved.respected (h : Preserved R id) : Respected (Kept R) id where
  pure := by
    intro α a s b s' hrun
    obtain ⟨-, rfl⟩ := runs_pure_iff.1 hrun
    exact h.refl s
  bind := by
    intro α β step _ next _ hstep hnext s b s' hrun
    obtain ⟨a, s₁, h₁, h₂⟩ := runs_bind_iff.1 hrun
    exact h.trans (hstep s a s₁ h₁) (hnext a s₁ b s' h₂)
  get := by
    intro s t s' hrun
    obtain ⟨-, rfl⟩ := runs_get_iff.1 hrun
    exact h.refl s
  throw := fun _ _ _ _ hrun => (runs_throw_iff.1 hrun).elim
  modifyContext := by
    intro f hf s u s' hrun
    rw [runs_modifyContext_iff.1 hrun]
    exact h.context s _ (hf s.context)
  declare := by
    intro path extent s u s' hrun
    rw [runs_declare_iff.1 hrun]
    exact h.frame s _
  rebind := by
    intro path extent s u s' hrun
    obtain ⟨frame, -, rfl⟩ := runs_rebind_iff.1 hrun
    exact h.frame s frame
  adopt := h.adopt
  record := h.record
  enclosed := by
    intro enter steps _ _ hsteps s changes s' hrun
    obtain ⟨s₁, hinner, -, rfl⟩ := runs_within_iff.1 hrun
    exact h.trans (h.frame s _) (h.trans (hsteps _ _ _ hinner) (h.frame s₁ s.frame))

theorem Preserved.forM {α : Type} (h : Preserved R id)
    {f : α → FlowM PUnit} {xs : List α} (hf : ∀ x ∈ xs, Keeps R (f x)) :
    Keeps R (xs.forM f) := by
  induction xs with
  | nil => exact h.respected.pure _
  | cons x xs ih => exact (h.respected.bind (hf x List.mem_cons_self) fun _ =>
    ih fun y hy => hf y (List.mem_cons_of_mem _ hy) : Fixed (Kept R) (f x >>= fun _ => xs.forM f))

namespace Respected

variable {K : ∀ {α : Type}, FlowM α → FlowM α → Prop} {α β : Type} (h : Respected K id)

include h

/-! ## Building steps -/

theorem lift (result : Except Fault α) : Fixed K (liftM result : FlowM α) := by
  cases result with
  | ok a => exact h.pure a
  | error fault => exact h.throw _

theorem liftThen {result : Except Fault α} {next next' : α → FlowM β}
    (hnext : ∀ a, result = .ok a → K (next a) (next' a)) :
    K (liftM result >>= next) (liftM result >>= next') := by
  cases result with
  | ok a => exact hnext a rfl
  | error fault => exact h.throw (α := β) _

theorem forM {f f' : α → FlowM PUnit} {xs : List α} (hf : ∀ x ∈ xs, K (f x) (f' x)) :
    K (xs.forM f) (xs.forM f') := by
  induction xs with
  | nil => exact h.pure _
  | cons x xs ih =>
    exact h.bind (hf x List.mem_cons_self) fun _ => ih fun y hy => hf y (List.mem_cons_of_mem _ hy)

/-! ## Elementary steps -/

theorem store (stored container : Lifetime) (ty? : Option Ty) :
    Fixed K (store stored container ty?) :=
  h.modifyContext fun context =>
    { Context.Extends.refl context with graph := Outlives.below_store _ _ _ _ }

theorem flowOf? (node : NodeId) : Fixed K (flowOf? node) := h.bind h.get fun _ => h.lift _

/-! ## The rules -/

/-- The steps are related with whatever related steps come after them. -/
def Leads (K : ∀ {α : Type}, FlowM α → FlowM α → Prop) {α : Type} (step step' : FlowM α)
    (R : α → α → Prop) : Prop :=
  ∀ (β : Type) (next next' : α → FlowM β), (∀ a b, R a b → K (next a) (next' b)) →
    K (step >>= next) (step' >>= next')

theorem leads {step step' : FlowM α} {R : α → α → Prop} (hstep : K step step')
    (hR : ∀ a, R a a) : Leads K step step' R :=
  fun _ _ _ hnext => h.bind hstep fun a => hnext a a (hR a)

theorem leadsContext {f : Context → Context}
    (hf : ∀ context : Context, context.Extends (f context)) :
    Leads K (Flow.modifyContext f) (Flow.modifyContext f) fun _ _ => True :=
  h.leads (h.modifyContext hf) fun _ => trivial

theorem leadsLast {step step' : FlowM Unit} (hstep : Leads K step step' fun _ _ => True) :
    K step step' := by
  have hlast : K (step >>= Pure.pure) (step' >>= Pure.pure) := hstep _ _ _ fun _ _ _ => h.pure ()
  rwa [bind_pure, bind_pure] at hlast

/-- The two runs of a coupling may start from one state, and then go through the same states. -/
def coupling (h : Respected K id) (env : Env) : Coupling env id where
  ahead := 0
  Ours := fun _ => True
  Known := fun _ => True
  Sim := Eq
  Agree := Leads K
  names := fun _ _ _ => trivial
  ours_tempPath := fun _ _ => trivial
  ours := fun _ _ => trivial
  known_none := trivial
  known_region := fun _ => trivial
  known := fun _ _ _ => trivial
  pure := fun hR _ next next' hnext => by
    rw [pure_bind, pure_bind]
    exact hnext _ _ hR
  bind := fun hstep hnext _ next next' hlater => by
    rw [bind_assoc, bind_assoc]
    exact hstep _ _ _ fun a b hab => hnext a b hab _ _ _ hlater
  throw := fun β _ _ _ => h.throw (α := β) _
  weaken := fun hstep hweaken _ _ _ hnext => hstep _ _ _ fun a b hab => hnext a b (hweaken a b hab)
  get := h.leads h.get fun _ => rfl
  flowOf? := h.leads (h.flowOf? _) (by simp)
  newRoot := fun _ next next' hnext => by
    unfold Flow.newRoot
    rw [bind_assoc, bind_assoc]
    exact h.bind (h.modifyContext fun context => .insertRoot context _) fun _ =>
      hnext _ _ ⟨rfl, rfl⟩
  store := fun {stored container ty?} _ _ => by
    simpa using h.leads (h.store stored container ty?) fun _ => trivial
  storeInSupport := fun {s t written l} hsim _ _ => by
    subst hsim
    simpa using h.leads (h.forM fun holder _ => h.store written holder none) fun _ => trivial
  expose := fun _ => h.leadsContext fun context => .insertExposed context _
  capture := fun _ _ => h.leadsContext fun context => { Context.Extends.refl context with }
  log := fun {write} _ _ => by
    rw [HeapWrite.renumber_zero]
    exact h.leadsContext fun context => { Context.Extends.refl context with
      heapWrites := List.prefix_append _ [write] }
  declare :=
    fun {path extent} _ _ => by simpa using h.leads (h.declare path extent) fun _ => trivial
  rebind := fun {path extent} _ _ => by simpa using h.leads (h.rebind path extent) fun _ => trivial
  newVersion := fun _ _ next next' hnext => by
    unfold Flow.newVersion
    simp only [bind_assoc]
    exact h.bind h.get fun s =>
      h.bind (h.modifyContext fun context => { Context.Extends.refl context with
      nextVersion := Nat.le_succ _ }) fun _ => hnext _ _ ⟨by simp, trivial, rfl⟩
  adopt :=
    fun {version slot} _ _ _ => by simpa using h.leads (h.adopt version slot) fun _ => trivial
  within := fun henter hsteps => h.leads (h.enclosed henter (h.leadsLast hsteps)) (by simp)
  record :=
    fun {bundle escaping} _ _ => by simpa using h.leads (h.record bundle escaping) fun _ => trivial
  frame := by simp
  bindings := fun _ _ => ⟨trivial, trivial, trivial⟩
  exposed := by rintro s _ path rfl _; rfl
  captured := by rintro s _ path rfl _; rfl
  rootsOf := by rintro s _ l rfl _; simp
  backed := by rintro s _ l rfl _; simp
  slots := by rintro s _ l rfl _; simp
  rebound := by rintro s _ s₁ _ rfl rfl; simp
  known_rebound := fun _ _ _ => trivial
  heapWrites := by rintro s _ s₁ _ rfl rfl; simp
  known_heapWrites := fun _ _ _ => ⟨trivial, trivial⟩

theorem rule {env : Env} {recur recur' : Recur} {node : Node} (hnode : env.node id = .ok node)
    (hrec : ∀ position, ∀ child ∈ node.expr.children, K (recur position child)
      (recur' position child))
    (position : Position) :
    K (rule env recur position id node.expr) (rule env recur' position id node.expr) := by
  refine h.leadsLast (Coupling.rule (C := h.coupling env) hnode fun position child hchild => ?_)
  exact h.leads (hrec position child hchild) fun _ => trivial

theorem declareParameters (env : Env) (parameters : List Parameter) :
    Fixed K (declareParameters env parameters) :=
  h.leadsLast (Coupling.declareParameters (C := h.coupling env) fun _ _ _ => trivial)

theorem checkReturn (env : Env) (function : Function) : Fixed K (checkReturn env function) :=
  h.leadsLast (Coupling.checkReturn (C := h.coupling env))

end Respected

/-- Where it runs to its end, the analysis does what the rules say. -/
structure Analyses (env : Env) (analysis : Nat → Recur) : Prop where
  zero : ∀ position id s u s', ¬ Runs (analysis 0 position id) s u s'
  succ : ∀ depth position id s u s', Runs (analysis (depth + 1) position id) s u s' →
    s' = s ∨ ∃ node, env.node id = .ok node ∧
      Runs (rule env (analysis depth) position id node.expr) s u s'

theorem analyses_analyzeNode (env : Env) : Analyses env (analyzeNode env) where
  zero := by
    intro position id s u s' h
    simp [analyzeNode] at h
  succ := by
    intro depth position id s u s' h
    simp only [analyzeNode, runs_bind_iff, runs_flowOf?_iff, runs_ite_iff, runs_pure_iff,
      runs_lift_iff] at h
    obtain ⟨flow?, _, ⟨-, rfl⟩,
      ⟨-, -, rfl⟩ | ⟨-, node, _, ⟨hnode, rfl⟩, hrule⟩⟩ := h
    · exact .inl rfl
    · exact .inr ⟨node, hnode, hrule⟩

/-- An analysis keeps a relation that is preserved at all nodes that it can come to. -/
theorem Analyses.keeps {env : Env} {S : NodeId → Prop}
    {analysis : Nat → Recur} (hanalysis : Analyses env analysis)
    (hclosed : ∀ id node, S id → env.node id = .ok node →
      ∀ child ∈ node.expr.children, S child)
    (h : ∀ id, S id → Preserved R id) (depth : Nat) (position : Position)
    (hid : S id) : Keeps R (analysis depth position id) := by
  induction depth generalizing position id with
  | zero => exact fun s u s' hrun => absurd hrun (hanalysis.zero _ _ _ _ _)
  | succ depth ih =>
    intro s u s' hrun
    rcases hanalysis.succ _ _ _ _ _ _ hrun with rfl | ⟨node, hnode, hrun⟩
    · exact (h id hid).refl _
    · have hchild : ∀ position, ∀ child ∈ node.expr.children,
          Keeps R (analysis depth position child) :=
        fun position child hmem => ih position (hclosed id node hid hnode child hmem)
      have hrule : Fixed (Kept R) (rule env (analysis depth) position id node.expr) :=
        (h id hid).respected.rule hnode hchild position
      exact hrule s u s' hrun

end Regions.Flow
