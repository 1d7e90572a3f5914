import Regions.Proofs.Keeps

/-!
# Growth of the state

Along an analysis the knowledge about the program only grows, and the result of a node stays once
it is recorded.

* `Grows`: the order on states, which does not look at the frame;
* `grows_analyzeNode`, `grows_analyzeFunction`: every run of the analysis goes up in it;
* `RecordsOnly S`: only nodes in `S` get a result;
* `recordsOnly_analyzeNode`: the analysis of a node records nodes below it only.
-/

namespace Regions.Flow

variable {id : NodeId} {env : Env} {S : NodeId → Prop}

/-- The knowledge about the program grows, and results stay. -/
structure Grows (s s' : State) : Prop where
  graph : s.context.graph.Below s'.context.graph
  roots : ∀ root, root ∈ s.context.roots → root ∈ s'.context.roots
  exposed : ∀ path, path ∈ s.context.exposed → path ∈ s'.context.exposed
  rebound : s.context.rebound <+: s'.context.rebound
  heapWrites : s.context.heapWrites <+: s'.context.heapWrites
  nextVersion : s.context.nextVersion ≤ s'.context.nextVersion
  recorded : ∀ id flow, s.flowAt id = some flow → s'.flowAt id = some flow

namespace Grows

variable {s s₁ s' : State}

theorem refl (s : State) : Grows s s where
  graph := Outlives.Below.refl _
  roots := fun _ h => h
  exposed := fun _ h => h
  rebound := List.prefix_rfl
  heapWrites := List.prefix_rfl
  nextVersion := Nat.le_refl _
  recorded := fun _ _ h => h

theorem trans (h : Grows s s₁) (h' : Grows s₁ s') : Grows s s' where
  graph := h.graph.trans h'.graph
  roots := fun root hroot => h'.roots root (h.roots root hroot)
  exposed := fun path hpath => h'.exposed path (h.exposed path hpath)
  rebound := h.rebound.trans h'.rebound
  heapWrites := h.heapWrites.trans h'.heapWrites
  nextVersion := Nat.le_trans h.nextVersion h'.nextVersion
  recorded := fun id flow hflow => h'.recorded id flow (h.recorded id flow hflow)

theorem frame (s : State) (frame : Frame) : Grows s { s with frame } := { refl s with }

theorem of_record {bundle : Bundle} {escaping : PathSet}
    (h : Runs (record id bundle escaping) s () s') : Grows s s' := by
  obtain ⟨hnone, hcontext, -, hflow⟩ := runs_record h
  have hrecorded : ∀ other flow, s.flowAt other = some flow → s'.flowAt other = some flow := by
    intro other flow hother
    -- A node that has a result is not the one that gets one now.
    have hne : other ≠ id := by
      rintro rfl
      rw [hnone] at hother
      cases hother
    rw [hflow other, if_neg hne]
    exact hother
  obtain ⟨context, frame, flows⟩ := s'
  obtain rfl : context = s.context := hcontext
  exact { Grows.refl s with recorded := hrecorded }

theorem recorded_ne_none (h : Grows s s') (hid : s.flowAt id ≠ none) : s'.flowAt id ≠ none := by
  obtain ⟨flow, hflow⟩ := Option.ne_none_iff_exists'.1 hid
  simp [h.recorded id flow hflow]

end Grows

theorem preserved_grows (id : NodeId) : Preserved Grows id where
  refl := Grows.refl
  trans := Grows.trans
  context := by
    intro s context h
    exact {
      graph := h.graph
      roots := h.roots
      exposed := h.exposed
      rebound := h.rebound ▸ List.prefix_rfl
      heapWrites := h.heapWrites
      nextVersion := h.nextVersion
      recorded := fun _ _ hflow => hflow }
  frame := Grows.frame
  adopt := by
    intro version slot s u s' hrun
    obtain ⟨frame, -, rfl⟩ := runs_adopt_iff.1 hrun
    exact { Grows.refl s with rebound := List.prefix_append _ _ }
  record := fun _ _ _ _ _ hrun => Grows.of_record hrun

theorem respected_grows (id : NodeId) : Respected (Kept Grows) id := (preserved_grows id).respected

theorem Grows.of_extends {s : State} {context : Context} (h : s.context.Extends context) :
    Grows s (s.withContext context) :=
  (preserved_grows ⟨0⟩).context s context h

/-- The rules are gone through once for all couplings. -/
theorem grows_of_match (env : Env) (id : NodeId) {step step' : FlowM Unit}
    (h : ((respected_grows id).coupling env).Match step step') : Keeps Grows step :=
  (respected_grows id).leadsLast h

theorem grows_analyzeNode (env : Env) (depth : Nat) (position : Position) (id : NodeId) :
    Keeps Grows (analyzeNode env depth position id) :=
  (analyses_analyzeNode env).keeps (S := fun _ => True) (fun _ _ _ _ _ _ => trivial)
    (fun id _ => preserved_grows id) depth position trivial

/-- A member of a parameter has storage of its own, and so has what was passed in at a reference. -/
theorem runs_declareParameterMember {path : Path} {field : Field} {s s' : State}
    (h : Runs (declareParameterMember path field) s () s') :
    let slot := .root (path ++ field.path) .localSlot
    let value := .root (path ++ field.path) .localValue
    field.tracked = true ∧ s' = { s with
      context := { s.context with
        graph := s.context.graph.store value slot field.ty
        roots := (s.context.roots.insert slot).insert value }
      frame := s.frame.declare (path ++ field.path) ⟨value, slot⟩ } ∨
    ¬ field.tracked = true ∧ s' = { s with
      context := { s.context with roots := s.context.roots.insert slot }
      frame := s.frame.declare (path ++ field.path) ⟨.none, slot⟩ } := by
  simp only [declareParameterMember, runs_bind_iff, runs_newRoot_iff, runs_ite_iff, runs_store_iff,
    runs_declare_iff] at h
  obtain ⟨_, _, ⟨rfl, rfl⟩,
    ⟨htracked, _, _, ⟨rfl, rfl⟩, _, _, rfl, rfl⟩ | ⟨huntracked, rfl⟩⟩ := h
  · exact .inl ⟨htracked, rfl⟩
  · exact .inr ⟨huntracked, rfl⟩

theorem grows_analyzeFunction (env : Env) (function : Function) :
    Fixed (Kept Grows) (analyzeFunction env function) := by
  have h := respected_grows function.body
  refine h.bind (h.declareParameters env _) fun _ =>
    h.bind (grows_analyzeNode env _ _ _) fun _ => ?_
  split
  · exact h.pure _
  · exact h.checkReturn env function

/-- The analysis of a node without a result runs its rule. -/
theorem runs_analyzeNode {depth : Nat} {position : Position} {s s' : State}
    (h : Runs (analyzeNode env depth position id) s () s') (hfresh : s.flowAt id = none) :
    ∃ below node, depth = below + 1 ∧ env.node id = .ok node ∧
      Runs (rule env (analyzeNode env below) position id node.expr) s () s' := by
  cases depth with
  | zero => simp [analyzeNode] at h
  | succ below =>
    simp only [analyzeNode, runs_bind_iff, runs_flowOf?_iff, runs_ite_iff, runs_lift_iff] at h
    obtain ⟨flow?, _, ⟨hget, rfl⟩,
      ⟨hsome, _⟩ | ⟨_, node, _, ⟨hnode, rfl⟩, hrule⟩⟩ := h
    · simp [State.flowAt, hget] at hfresh
      simp [hfresh] at hsome
    · exact ⟨below, node, rfl, hnode, hrule⟩

theorem runs_analyzeNode_of_recorded {depth : Nat} {position : Position} {s s' : State}
    {flow : NodeFlow} (h : Runs (analyzeNode env depth position id) s () s')
    (hflow : s.flowAt id = some flow) : s' = s := by
  cases depth with
  | zero => simp [analyzeNode] at h
  | succ depth =>
    simp only [analyzeNode, runs_bind_iff, runs_flowOf?_iff, runs_ite_iff, runs_pure_iff] at h
    obtain ⟨flow?, _, ⟨hget, rfl⟩, ⟨_, _, rfl⟩ | ⟨hnone, _⟩⟩ := h
    · rfl
    · rw [State.flowAt_eq_some_iff, hget] at hflow
      simp [Option.some.inj hflow] at hnone

/-! ## Which nodes get a result -/

/-- Only nodes in `S` get a result. -/
def RecordsOnly (S : NodeId → Prop) (s s' : State) : Prop :=
  ∀ id, ¬ S id → s'.flowAt id = s.flowAt id

theorem preserved_recordsOnly (hid : S id) : Preserved (RecordsOnly S) id where
  refl := fun _ _ _ => rfl
  trans := fun h h' other hother => (h' other hother).trans (h other hother)
  context := fun _ _ _ _ _ => rfl
  frame := fun _ _ _ _ => rfl
  adopt := by
    intro version slot s u s' hrun other _
    obtain ⟨frame, -, rfl⟩ := runs_adopt_iff.1 hrun
    rfl
  record := by
    intro bundle escaping s u s' hrun other hother
    obtain ⟨-, -, -, hflow⟩ := runs_record hrun
    have hne : other ≠ id := by
      rintro rfl
      exact hother hid
    rw [hflow other, if_neg hne]

theorem Analyses.recordsOnly {analysis : Nat → Recur} (hanalysis : Analyses env analysis)
    (hclosed : ∀ id node, S id → env.node id = .ok node →
      ∀ child ∈ node.expr.children, S child)
    (depth : Nat) (position : Position) (hid : S id) :
    Keeps (RecordsOnly S) (analysis depth position id) :=
  hanalysis.keeps hclosed (fun _ hid => preserved_recordsOnly hid) depth position hid

theorem recordsOnly_analyzeNode (hclosed : ∀ id node, S id → env.node id = .ok node →
      ∀ child ∈ node.expr.children, S child)
    (depth : Nat) (position : Position) (hid : S id) :
    Keeps (RecordsOnly S) (analyzeNode env depth position id) :=
  (analyses_analyzeNode env).recordsOnly hclosed depth position hid

end Regions.Flow
