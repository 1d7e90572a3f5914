import Regions.Proofs.Transitions

/-!
# Tracing the analysis

What a step has done is a sequence of transitions, also where it ends early. Where it ends with a
fault, the state shows why.

* `Watch`: what is known where an analysis comes to a node, and where it is halted;
* `Question`, `Faulty`: why an analysis ends with a fault;
* `Traces`: a step that only makes transitions, from an origin on.
-/

namespace Regions.Flow

variable {env : Env} {id : NodeId} {node : Node}

/-- What an analysis is watched for: what holds where it is halted, where it comes to a node, and
where it goes too deep. -/
structure Watch where
  halts : State → Prop
  arrives : Position → NodeId → State → Prop
  deep : Prop

/-- Nodes that come with their operands. -/
def Env.Closes (env : Env) (S : NodeId → Prop) : Prop :=
  ∀ id node, S id → env.node id = .ok node → ∀ child ∈ node.expr.children, S child

/-- Between the states a node was analysed: only transitions were made, and nothing was recorded but
the node and what is below it. -/
structure Analysed (X : Setting) (id : NodeId) (s s' : State) : Prop extends Reframes X s s' where
  steps : ∃ p p' : Progress X, p.task = none ∧ p'.task = none ∧ Steps X p s p' s'
  records : ∀ S, X.env.Closes S → S id → RecordsOnly S s s'

/-! ## Why an analysis ends with a fault -/

/-- A question that the rule of a node asks about the program has no answer. -/
inductive Question (env : Env) (node : Node) (fault : Fault) : Prop
  | members (h : env.declarations.members node.ty = .error fault)
  | fields (h : env.fields node.ty = .error fault)
  | tracked (h : env.tracked node.ty = .error fault)
  | operand {child : NodeId} (hchild : child ∈ node.expr.children)
      (h : env.node child = .error fault)
  | operandFields {child : NodeId} {ty : Ty} (hchild : child ∈ node.expr.children)
      (hty : env.typeOf child = .ok ty) (h : env.fields ty = .error fault)
  | operandTracked {child : NodeId} {ty : Ty} (hchild : child ∈ node.expr.children)
      (hty : env.typeOf child = .ok ty) (h : env.tracked ty = .error fault)
  | place {target value : NodeId} (hexpr : node.expr = .assignment target value)
      (h : placePath? env.owner env.owner.depth target = .error fault)
  | effects {condition body : NodeId} (hexpr : node.expr = .loop condition body)
      (h : loopEffects env.owner condition body = .error fault)

/-- The assignment at work was come to in `s₀`, and began with its target. -/
structure Started {X : Setting} (H : Watch) (p₀ : Progress X) (o s₀ s : State) (task : Task X) :
    Prop where
  reached : ∃ p, Inside X p₀ o p s₀
  arrives : H.arrives .value task.id s₀
  target : ∃ target value s₁, task.node.expr = .assignment target value ∧
    Analysed X target s₀ s₁ ∧ s.flowAt target = s₁.flowAt target

/-- Why an analysis that began in `o` ends with a fault. The task is the node whose rule has found
it. -/
inductive Faulty (X : Setting) (H : Watch) (p₀ : Progress X) (o s : State) : Fault → Prop
  | deep (h : H.deep) : Faulty X H p₀ o s .cyclicBody
  | parameter {parameter : Parameter} {fault : Fault} (hparameter : parameter ∈ X.parameters)
      (h : X.env.fields parameter.ty = .error fault) : Faulty X H p₀ o s fault
  | node {position : Position} {id : NodeId} {fault : Fault} (hvisited : X.visits position id)
      (h : X.env.node id = .error fault) : Faulty X H p₀ o s fault
  | range {position : Position} {id : NodeId} (hvisited : X.visits position id)
      (h : s.recorded.get? id = none) : Faulty X H p₀ o s (.outOfRange id)
  | question (task : Task X) {fault : Fault} (h : Question X.env task.node fault) : Faulty X
      H p₀ o s fault
  | twice (task : Task X) (h : ¬ X.Acyclic) : Faulty X H p₀ o s (.recordedTwice task.id)
  /-- A variable is looked up that is not there. -/
  | unseen (task : Task X) {x path : Path} {members : List (Path × Ty)}
      (hexpr : task.node.expr = .var x) (harrives : H.arrives task.position task.id s)
      (hmembers : X.env.declarations.members task.node.ty = .ok members)
      (hpath : path ∈ members.map Prod.fst) (h : s.frame.lookup? (x ++ path) = none) :
      Faulty X H p₀ o s (.undeclaredBinding (x ++ path))
  /-- A value is used as a whole that has none. -/
  | whole (task : Task X) {target : NodeId} {flow : NodeFlow} {ty : Ty}
      (hexpr : task.node.expr = .addressOf target ∨ task.node.expr = .dereference target ∨
        ∃ subscript, task.node.expr = .index target subscript)
      (hflow : s.flowAt target = some flow) (h : flow.bundle.whole? = none) :
      Faulty X H p₀ o s (.noWholeValue target ty)
  | storage (task : Task X) {target : NodeId} {flow : NodeFlow} {extent : Extent}
      (hexpr : task.node.expr = .addressOf target) (hflow : s.flowAt target = some flow)
      (hwhole : flow.bundle.whole? = some extent) (h : extent.slot.isNone = true) :
      Faulty X H p₀ o s (.noStorage target)
  | member (task : Task X) {target : NodeId} {name : String} {flow : NodeFlow}
      (hexpr : task.node.expr = .memberAccess target name) (hflow : s.flowAt target = some flow)
      (h : (flow.bundle.scopedTo (.single name)).whole?.isNone = true) :
      Faulty X H p₀ o s (.noMemberLifetimes name target)
  | count (task : Task X) {target : NodeId} {name : String} {flow : NodeFlow}
      {members : List (Path × Ty)}
      (hexpr : task.node.expr = .memberAccess target name) (hflow : s.flowAt target = some flow)
      (hmembers : X.env.declarations.members task.node.ty = .ok members)
      (h : (flow.bundle.scopedTo (.single name)).size ≠ members.length) :
      Faulty X H p₀ o s (.memberCount task.id)
  | callee (task : Task X) {function : Path} {arguments : List NodeId}
      (hexpr : task.node.expr = .call function arguments)
      (h : function ∉ X.env.declarations.functions) : Faulty X H p₀ o s (.noSignature function)
  | initializer (task : Task X) {path : Path} {value : NodeId} {flow : NodeFlow} {ty : Ty}
      {fields : List Field} {field : Field} (hexpr : task.node.expr = .declaration path value)
      (hflow : s.flowAt value = some flow) (hty : X.env.typeOf value = .ok ty)
      (hfields : X.env.fields ty = .ok fields) (hfield : field ∈ fields)
      (h : flow.bundle[field.path]? = none) :
      Faulty X H p₀ o s (.initializerMember path field.path)
  | assignment (task : Task X) {target value : NodeId} {places assigned : NodeFlow} {ty : Ty}
      {fields : List Field} {field : Field} (hexpr : task.node.expr = .assignment target value)
      (hplaces : s.flowAt target = some places) (hassigned : s.flowAt value = some assigned)
      (hty : X.env.typeOf target = .ok ty) (hfields : X.env.fields ty = .ok fields)
      (hfield : field ∈ fields)
      (h : places.bundle[field.path]? = none ∨ assigned.bundle[field.path]? = none) :
      Faulty X H p₀ o s (.assignmentMember task.id field.path)
  /-- The place of a field is a variable that is not visible. -/
  | hidden (task : Task X) {field : Field} {place new : Extent} {s₀ : State}
      (hassigning : Assigning s task field place new) (hslot : place.slot.isSlot = true)
      (hstarted : Started H p₀ o s₀ s task)
      (hvisible : ∀ path, (∃ extent, s₀.frame.lookup? path = some extent) →
        ∃ extent, s.frame.lookup? path = some extent)
      (h : s.frame.lookup? place.slot.path = none) : Faulty X H p₀ o s
      (.hiddenBinding place.slot.path)
  | outside (task : Task X) (hexpr : task.node.expr = .breakLoop ∨ task.node.expr = .continueLoop)
      (harrives : H.arrives task.position task.id s) (h : s.frame.inLoop = false) :
      Faulty X H p₀ o s (.outsideLoop task.node.expr)
  | place (task : Task X) (hposition : task.position = .place)
      (h : task.node.expr.isPlace = false) : Faulty X H p₀ o s (.cannotBePlace task.node.expr)

/-- What began in a state began before it. -/
theorem Faulty.embed {X : Setting} {H : Watch} {p₀ p₁ : Progress X} {o o₁ s : State}
    {fault : Fault} (h : Faulty X H p₁ o₁ s fault)
    (hreached : ∀ p' s', Inside X p₁ o₁ p' s' → Inside X p₀ o p' s') :
    Faulty X H p₀ o s fault := by
  cases h with
  | hidden task hassigning hslot hstarted hvisible h =>
    obtain ⟨⟨p, hinside⟩, harrives, htarget⟩ := hstarted
    exact .hidden task hassigning hslot
      ⟨⟨p, hreached p _ hinside⟩, harrives, htarget⟩ hvisible h
  | deep h => exact .deep h
  | parameter hparameter h => exact .parameter hparameter h
  | node hvisited h => exact .node hvisited h
  | range hvisited h => exact .range hvisited h
  | question task h => exact .question task h
  | twice task h => exact .twice task h
  | unseen task hexpr harrives hmembers hpath h =>
      exact .unseen task hexpr harrives hmembers hpath h
  | whole task hexpr hflow h => exact .whole task hexpr hflow h
  | storage task hexpr hflow hwhole h => exact .storage task hexpr hflow hwhole h
  | member task hexpr hflow h => exact .member task hexpr hflow h
  | count task hexpr hflow hmembers h => exact .count task hexpr hflow hmembers h
  | callee task hexpr h => exact .callee task hexpr h
  | initializer task hexpr hflow hty hfields hfield h =>
    exact .initializer task hexpr hflow hty hfields hfield h
  | assignment task hexpr hplaces hassigned hty hfields hfield h =>
    exact .assignment task hexpr hplaces hassigned hty hfields hfield h
  | outside task hexpr harrives h => exact .outside task hexpr harrives h
  | place task hposition h => exact .place task hposition h

theorem Env.typeOf_of_node (h : env.node id = .ok node) : env.typeOf id = .ok node.ty := by
  rw [Env.typeOf, h]
  rfl

theorem Env.node_of_typeOf {fault : Fault} (h : env.typeOf id = .error fault) :
    env.node id = .error fault := by
  cases hnode : env.node id with
  | ok node => cases (Env.typeOf_of_node hnode).symm.trans h
  | error other =>
    simpa [Env.typeOf, hnode, bind, Except.bind] using h

theorem Env.node_eq_ok_iff : env.node id = .ok node ↔ env.owner.nodes.get? id = some node := by
  unfold Env.node Owner.node
  split <;> simp_all

theorem Env.lt_size_of_node (h : env.node id = .ok node) : id.index < env.owner.nodes.size :=
  (Array.getElem?_eq_some_iff.1 (Env.node_eq_ok_iff.1 h)).1

/-! ## Traces -/

variable {X : Setting} {α β : Type} {p₀ p p' : Progress X} {o s s' : State} {H : Watch}

/-- The analysis ends because of what a function returns, or since it is halted from outside. -/
def Abort.Leaves : Abort → Prop
  | .violation (.returnEscape _ _ _ _) => True
  | _ => False

theorem not_leaves_fault {fault : Fault} : ¬ Abort.Leaves (.fault fault) := id

/-- How an analysis may end early. Where it is halted, or finds that data escapes, no node is at
work. -/
structure Stops (H : Watch) (p₀ : Progress X) (o : State) (abort : Abort) (p : Progress X)
    (s : State) : Prop where
  leaves : abort.Leaves → p.task = none ∧ H.halts s
  fault : ∀ fault, abort = .fault fault → Faulty X H p₀ o s fault

theorem Stops.of_fault {fault : Fault} (h : Faulty X H p₀ o s fault) :
    Stops H p₀ o (.fault fault) p s where
  leaves := fun hleaves => absurd hleaves not_leaves_fault
  fault := by
    intro other hother
    cases hother
    exact h

theorem Stops.embed {p₁ : Progress X} {o₁ : State} {abort : Abort}
    (h : Stops H p₁ o₁ abort p s)
    (hreached : ∀ p' s', Inside X p₁ o₁ p' s' → Inside X p₀ o p' s') :
    Stops H p₀ o abort p s where
  leaves := h.leaves
  fault := fun fault hfault => (h.fault fault hfault).embed hreached

/-- What the step has done after the transitions from `o` to `s` are transitions too. -/
def Traces (p₀ : Progress X) (o : State) (p : Progress X) (step : FlowM α) (s : State)
    (H : Watch) (Q : α → Progress X → State → Prop) : Prop :=
  Steps X p₀ o p s → match step s with
    | .ok a s' => ∃ p', Steps X p₀ o p' s' ∧ Q a p' s'
    | .error abort s' => ∃ p', Inside X p₀ o p' s' ∧ Stops H p₀ o abort p' s'

/-! ## Steps that end early -/

section Aborts

/-- From `s`, the step ends early in `s'`. -/
def Aborts (step : FlowM α) (s : State) (abort : Abort) (s' : State) : Prop :=
  step s = .error abort s'

instance decidableExistsAborts {step : FlowM α} {P : Abort → State → Prop}
    [∀ abort s', Decidable (P abort s')] :
    Decidable (∃ abort s', Aborts step s abort s' ∧ P abort s') :=
  match h : step s with
  | .ok _ _ => .isFalse (by simp [Aborts, h])
  | .error abort s' => decidable_of_iff (P abort s') (by simp [Aborts, h])

variable {abort : Abort}

@[simp] theorem not_aborts_pure {a : α} : ¬ Aborts (pure a) s abort s' := by
  simp [Aborts, pure, EStateM.pure]

@[simp] theorem not_aborts_get : ¬ Aborts get s abort s' := by
  change EStateM.Result.ok s s ≠ .error abort s'
  simp

@[simp] theorem not_aborts_modify {f : State → State} : ¬ Aborts (modify f) s abort s' := by
  change EStateM.Result.ok PUnit.unit (f s) ≠ .error abort s'
  simp

@[simp] theorem aborts_throw_iff {thrown : Abort} :
    Aborts (throw thrown : FlowM α) s abort s' ↔ thrown = abort ∧ s = s' := by
  change EStateM.Result.error (α := α) thrown s = .error abort s' ↔ _
  simp

@[simp] theorem aborts_lift_iff {result : Except Fault α} :
    Aborts (liftM result : FlowM α) s abort s' ↔
      ∃ fault, result = .error fault ∧ abort = .fault fault ∧ s = s' := by
  cases result with
  | ok a =>
    refine ⟨fun h => (by cases h), ?_⟩
    rintro ⟨_, h, -⟩
    cases h
  | error fault =>
    refine ⟨fun h => ?_, ?_⟩
    · cases h
      exact ⟨fault, rfl, rfl, rfl⟩
    · rintro ⟨_, h, rfl, rfl⟩
      cases h
      rfl

@[simp] theorem aborts_ite_iff {c : Prop} [Decidable c] {yes no : FlowM α} :
    Aborts (if c then yes else no) s abort s' ↔
      (c ∧ Aborts yes s abort s') ∨ (¬ c ∧ Aborts no s abort s') := by
  split <;> simp_all

@[simp] theorem aborts_bind_iff {step : FlowM α} {next : α → FlowM β} :
    Aborts (step >>= next) s abort s' ↔
      Aborts step s abort s' ∨ ∃ a s₁, Runs step s a s₁ ∧ Aborts
      (next a) s₁ abort s' := by
  unfold Aborts Runs
  simp only [bind, EStateM.bind]
  cases step s <;> simp

@[simp] theorem not_aborts_modifyContext {f : Context → Context} :
    ¬ Aborts (modifyContext f) s abort s' :=
  not_aborts_modify

theorem not_aborts_renew {slot assigned : Lifetime} {ty : Ty} :
    ¬ Aborts (renew slot assigned ty) s abort s' := by
  simp only [renew, newVersion, unify, store, aborts_bind_iff, not_aborts_get,
    not_aborts_modifyContext, not_aborts_pure, and_false, exists_false, or_self, not_false_eq_true]

/-- A version is not adopted if the variable cannot be looked up. -/
theorem aborts_adopt {version slot : Lifetime} (h : Aborts (adopt version slot) s abort s') :
    s = s' ∧ abort = .fault (.hiddenBinding version.path) ∧
    s.frame.lookup? version.path = none := by
  simp only [adopt, rebind, aborts_bind_iff, aborts_lift_iff, not_aborts_get, not_aborts_modify,
    not_aborts_modifyContext, runs_get_iff, false_or, or_false, and_false, exists_false] at h
  obtain ⟨_, _, ⟨rfl, rfl⟩, fault, hrebind, rfl, rfl⟩ := h
  unfold Frame.rebind at hrebind
  split at hrebind
  · cases hrebind
  · rename_i hnone
    cases hrebind
    exact ⟨rfl, rfl, hnone⟩

/-- A node is not recorded if it has a result, or is no node. -/
theorem aborts_record {bundle : Bundle} {escaping : PathSet}
    (h : Aborts (record id bundle escaping) s abort s') :
    s = s' ∧ (abort = .fault (.recordedTwice id) ∧ s.flowAt id ≠ none ∨
      abort = .fault (.outOfRange id) ∧ s.recorded.get? id = none) := by
  simp only [record, flowOf?, aborts_bind_iff, aborts_ite_iff, aborts_throw_iff, aborts_lift_iff,
    not_aborts_get, not_aborts_modify, runs_bind_iff, runs_get_iff, runs_lift_iff, runs_throw_iff,
    false_or, or_false, false_and, and_false, exists_false] at h
  rcases h with ⟨_, _, ⟨rfl, rfl⟩, fault, hget, rfl, rfl⟩
    | ⟨flow?, _, ⟨_, _, ⟨rfl, rfl⟩, hget, rfl⟩, h⟩
  · unfold Arena.get at hget
    split at hget
    · cases hget
    · rename_i hnone
      cases hget
      exact ⟨rfl, .inr ⟨rfl, hnone⟩⟩
  · unfold Arena.get at hget
    split at hget
    · rename_i hsome
      cases hget
      rcases h with ⟨htwice, rfl, rfl⟩ | ⟨-, _, _, ⟨rfl, rfl⟩, fault, hset, rfl, rfl⟩
      · exact ⟨rfl,
          .inl ⟨rfl, by simpa [State.flowAt, hsome, Option.isSome_iff_ne_none] using htwice⟩⟩
      · unfold Arena.set at hset
        split at hset
        · cases hset
        · rename_i hrange
          exact absurd (Array.getElem?_eq_some_iff.1 hsome).1 hrange
    · cases hget

end Aborts

namespace Traces

variable {Q : α → Progress X → State → Prop} {R : β → Progress X → State → Prop}
  {step : FlowM α}

theorem pure {a : α} (h : Q a p s) : Traces p₀ o p (pure a) s H Q :=
  fun hsteps => ⟨p, hsteps, h⟩

theorem bind {next : α → FlowM β} (h : Traces p₀ o p step s H Q)
    (h' : ∀ a p₁ s₁, Q a p₁ s₁ → Traces p₀ o p₁ (next a) s₁ H R) :
    Traces p₀ o p (step >>= next) s H R := by
  intro hsteps
  have hfirst := h hsteps
  change match EStateM.bind step next s with
    | .ok a s' => ∃ p', Steps X p₀ o p' s' ∧ R a p' s'
    | .error abort s' => ∃ p', Inside X p₀ o p' s' ∧ Stops H p₀ o abort p' s'
  unfold EStateM.bind
  cases hstep : step s with
  | ok a s₁ =>
    rw [hstep] at hfirst
    obtain ⟨p₁, hsteps₁, ha⟩ := hfirst
    exact h' a p₁ s₁ ha hsteps₁
  | error abort s₁ =>
    rw [hstep] at hfirst
    exact hfirst

theorem weaken {P : α → Progress X → State → Prop} (h : Traces p₀ o p step s H Q)
    (himp : ∀ a p' s', Q a p' s' → P a p' s') : Traces p₀ o p step s H P := by
  intro hsteps
  have hstep := h hsteps
  split at hstep
  · obtain ⟨p', hsteps', ha⟩ := hstep
    exact ⟨p', hsteps', himp _ _ _ ha⟩
  · exact hstep

/-- Transitions from the state itself come after those that led there. -/
theorem embed (h : Traces p s p step s H Q) : Traces p₀ o p step s H Q := by
  intro hsteps
  have hstep := h (.refl p s)
  split at hstep
  · obtain ⟨p', hsteps', ha⟩ := hstep
    exact ⟨p', hsteps.trans hsteps', ha⟩
  · obtain ⟨p', hinside, hstops⟩ := hstep
    exact ⟨p', hsteps.inside hinside, hstops.embed fun _ _ => hsteps.inside⟩

/-- What holds where the step has run may refer to the transitions from the state itself. -/
theorem andSteps (h : Traces p s p step s H Q) :
    Traces p s p step s H fun a p' s' => Q a p' s' ∧ Steps X p s p' s' := by
  intro hsteps
  have hstep := h hsteps
  split at hstep
  · obtain ⟨p', hsteps', ha⟩ := hstep
    exact ⟨p', hsteps', ha, hsteps'⟩
  · exact hstep

/-- What holds where the step has run may refer to the run. -/
theorem andRuns (h : Traces p₀ o p step s H Q) :
    Traces p₀ o p step s H fun a p' s' => Q a p' s' ∧ Runs step s a s' := by
  intro hsteps
  have hstep := h hsteps
  cases hrun : step s with
  | ok a s' =>
    rw [hrun] at hstep
    obtain ⟨p', hsteps', ha⟩ := hstep
    exact ⟨p', hsteps', ha, hrun⟩
  | error abort s' =>
    rw [hrun] at hstep
    exact hstep

theorem of_step {a : α} (hrun : Runs step s a s') (hstep : Step X p s p' s') (h : Q a p' s') :
    Traces p₀ o p step s H Q := by
  intro hsteps
  rw [show step s = .ok a s' from hrun]
  exact ⟨p', hsteps.step hstep, h⟩

theorem of_runs {a : α} (hrun : Runs step s a s) (h : Q a p s) : Traces p₀ o p step s H Q := by
  intro hsteps
  rw [show step s = .ok a s from hrun]
  exact ⟨p, hsteps, h⟩

theorem fault {fault : Fault} (h : Faulty X H p₀ o s fault) :
    Traces p₀ o p (throw (.fault fault)) s H Q :=
  fun hsteps => ⟨p, .here hsteps, .of_fault h⟩

theorem halted (hp : p.task = none) (h : H.halts s) : Traces p₀ o p (throw halt) s H Q :=
  fun hsteps =>
    ⟨p, .here hsteps, fun _ => ⟨hp, h⟩, fun _ hfault => absurd hfault.symm fault_ne_halt⟩

theorem faultThen {fault : Fault} {next : α → FlowM β} (h : Faulty X H p₀ o s fault) :
    Traces p₀ o p (throw (.fault fault) >>= next) s H R :=
  bind (Q := fun _ _ _ => False) (Traces.fault h) fun _ _ _ hfalse => hfalse.elim

theorem lift {result : Except Fault α}
    (hfault : ∀ fault, result = .error fault → Faulty X H p₀ o s fault)
    (h : ∀ a, result = .ok a → Q a p s) : Traces p₀ o p (liftM result : FlowM α) s H Q := by
  cases result with
  | ok a => exact pure (h a rfl)
  | error fault => exact Traces.fault (hfault fault rfl)

theorem get {P : State → Progress X → State → Prop} (h : P s p s) :
    Traces p₀ o p (get : FlowM State) s H P :=
  of_runs (runs_get_iff.2 ⟨rfl, rfl⟩) h

theorem forM {f : α → FlowM PUnit} {xs : List α} (I : List α → Progress X → State → Prop)
    (hstart : I [] p s)
    (hstep : ∀ before x after, xs = before ++ x :: after → ∀ p s, I before p s →
      Traces p₀ o p (f x) s H fun _ p' s' => I (before ++ [x]) p' s') :
    Traces p₀ o p (xs.forM f) s H fun _ p' s' => I xs p' s' := by
  suffices hall : ∀ rest before p s, xs = before ++ rest → I before p s →
      Traces p₀ o p (rest.forM f) s H fun _ p' s' => I xs p' s' from hall xs [] p s rfl hstart
  intro rest
  induction rest with
  | nil =>
    intro before p s hxs hI
    refine pure ?_
    rwa [hxs, List.append_nil]
  | cons x rest ih =>
    intro before p s hxs hI
    refine bind (hstep before x rest hxs p s hI) fun _ p₁ s₁ hI₁ => ?_
    exact ih (before ++ [x]) p₁ s₁ (by simp [hxs]) hI₁

theorem mapM {f : α → FlowM β} {xs : List α}
    (I : List α → List β → Progress X → State → Prop) (hstart : I [] [] p s)
    (hstep : ∀ before x after, xs = before ++ x :: after → ∀ bs p s, I before bs p s →
      Traces p₀ o p (f x) s H fun b p' s' => I (before ++ [x]) (bs ++ [b]) p' s') :
    Traces p₀ o p (xs.mapM f) s H fun bs p' s' => I xs bs p' s' := by
  suffices hall : ∀ rest before bs p s, xs = before ++ rest → I before bs p s →
      Traces p₀ o p (rest.mapM f) s H fun bs' p' s' => I xs (bs ++ bs') p' s' by
    simpa using hall xs [] [] p s rfl hstart
  intro rest
  induction rest with
  | nil =>
    intro before bs p s hxs hI
    rw [List.mapM_nil]
    refine pure ?_
    simpa [hxs] using hI
  | cons x rest ih =>
    intro before bs p s hxs hI
    rw [List.mapM_cons]
    refine bind (hstep before x rest hxs bs p s hI) fun b p₁ s₁ hI₁ => ?_
    refine bind (ih (before ++ [x]) (bs ++ [b]) p₁ s₁ (by simp [hxs]) hI₁)
      fun bs' p₂ s₂ hI₂ => ?_
    refine pure ?_
    simpa using hI₂

/-! ## Results of nodes -/

theorem flowOf? {P : Option NodeFlow → Progress X → State → Prop}
    (hrange : s.recorded.get? id = none → Faulty X H p₀ o s (.outOfRange id))
    (h : P (s.flowAt id) p s) : Traces p₀ o p (flowOf? id) s H P := by
  refine bind (Q := fun state p' s' => s = state ∧ p = p' ∧ s = s') (get ⟨rfl, rfl, rfl⟩) ?_
  rintro _ _ _ ⟨rfl, rfl, rfl⟩
  refine lift (fun fault hfault => ?_) fun flow? hflow => ?_
  · unfold Arena.get at hfault
    split at hfault
    · cases hfault
    · rename_i hnone
      cases hfault
      exact hrange hnone
  · have hat : s.flowAt id = flow? := by
      unfold Arena.get at hflow
      split at hflow
      · rename_i hget
        cases hflow
        simp [State.flowAt, hget]
      · cases hflow
    exact hat ▸ h

/-- A write that is a violation is none of those that end an analysis from outside. -/
theorem verify {write : HeapWrite} {P : Unit → Progress X → State → Prop} (h : P () p s) :
    Traces p₀ o p (verify X.env write) s H P := by
  refine bind (Q := fun _ p' s' => p = p' ∧ s = s') (get ⟨rfl, rfl⟩) ?_
  rintro state _ _ ⟨rfl, rfl⟩
  split
  · rename_i violation hviolation
    intro hsteps
    refine ⟨p, .here hsteps, fun hleaves => ?_, fun _ hfault => by cases hfault⟩
    unfold HeapWrite.violation? at hviolation
    dsimp only at hviolation
    split at hviolation
    · cases hviolation
      cases hleaves
    · cases hviolation
  · exact pure h

/-! ## Steps that read something first -/

theorem liftThen {result : Except Fault α} {next : α → FlowM β}
    (hfault : ∀ fault, result = .error fault → Faulty X H p₀ o s fault)
    (h : ∀ a, result = .ok a → Traces p₀ o p (next a) s H R) :
    Traces p₀ o p ((liftM result : FlowM α) >>= next) s H R := by
  refine bind (Q := fun a p' s' => result = .ok a ∧ p = p' ∧ s = s')
    (lift hfault fun a ha => ⟨ha, rfl, rfl⟩) ?_
  rintro a _ _ ⟨ha, rfl, rfl⟩
  exact h a ha

/-- The step goes on with what another one finds out. -/
theorem runsThen {a : α} {next : α → FlowM β} (hrun : Runs step s a s)
    (h : Traces p₀ o p (next a) s H R) : Traces p₀ o p (step >>= next) s H R := by
  refine bind (Q := fun a' p' s' => a = a' ∧ p = p' ∧ s = s')
    (of_runs hrun ⟨rfl, rfl, rfl⟩) ?_
  rintro _ _ _ ⟨rfl, rfl, rfl⟩
  exact h

theorem stepThen {a : α} {next : α → FlowM β} (hrun : Runs step s a s')
    (hstep : Step X p s p' s') (h : Traces p₀ o p' (next a) s' H R) :
    Traces p₀ o p (step >>= next) s H R := by
  refine bind (Q := fun a' p₁ s₁ => a = a' ∧ p' = p₁ ∧ s' = s₁)
    (of_step hrun hstep ⟨rfl, rfl, rfl⟩) ?_
  rintro _ _ _ ⟨rfl, rfl, rfl⟩
  exact h

theorem getThen {next : State → FlowM β} (h : Traces p₀ o p (next s) s H R) :
    Traces p₀ o p (MonadState.get >>= next) s H R :=
  runsThen (runs_get_iff.2 ⟨rfl, rfl⟩) h

theorem bundleThen {next : Bundle → FlowM β} (hdone : s.flowAt id ≠ none)
    (h : ∀ flow, s.flowAt id = some flow → Traces p₀ o p (next flow.bundle) s H R) :
    Traces p₀ o p (Flow.bundleOf id >>= next) s H R := by
  obtain ⟨flow, hflow⟩ := Option.ne_none_iff_exists'.1 hdone
  exact runsThen (runs_bundleOf_iff.2 ⟨flow, hflow, rfl, rfl⟩) (h flow hflow)

theorem escapingThen {next : PathSet → FlowM β} (hdone : s.flowAt id ≠ none)
    (h : ∀ flow, s.flowAt id = some flow → Traces p₀ o p (next flow.escaping) s H R) :
    Traces p₀ o p (Flow.escapingOf id >>= next) s H R := by
  obtain ⟨flow, hflow⟩ := Option.ne_none_iff_exists'.1 hdone
  exact runsThen (runs_escapingOf_iff.2 ⟨flow, hflow, rfl, rfl⟩) (h flow hflow)

end Traces

end Regions.Flow
