import Regions.Proofs.Reaches
import Regions.Proofs.Runs

/-!
# The elementary steps

One equation for each elementary step of the analysis: what its successful runs do to the state.
`State.flowAt` is the result recorded for a node; recording is the only step that changes it.
-/

namespace Regions

namespace Captures

variable {captures : Captures} {holder other captured path : Path}

/-- A record adds one edge, from the holder to what it captures, unless the two are the same. -/
theorem adj_record_iff : (captures.record path holder).held.Adj other captured ↔
      (other = holder ∧ captured = path ∧ captured ≠ holder) ∨
      captures.held.Adj other captured := by
  unfold record
  split
  · grind
  · rw [Digraph.adj_insert_iff]
    grind

/-- What is captured when a holder captures some more. -/
theorem adj_foldl_record_iff {paths : List Path} :
    (paths.foldl (fun captures path => captures.record path holder) captures).held.Adj
    other captured ↔
      (other = holder ∧ captured ∈ paths ∧ captured ≠ holder) ∨
      captures.held.Adj other captured := by
  induction paths generalizing captures with
  | nil => simp
  | cons path paths ih =>
    rw [List.foldl_cons, ih, adj_record_iff]
    grind

end Captures

namespace Flow

variable {path : Path} {extent : Extent} {id : NodeId} {α : Type}
  {E : Lifetime → Lifetime → Prop}

theorem mem_foldl_union_iff {sets : List PathSet} {start : PathSet} :
    path ∈ sets.foldl (· ∪ ·) start ↔ path ∈ start ∨
    ∃ set ∈ sets, path ∈ set := by
  induction sets generalizing start with
  | nil => simp
  | cons set sets ih => simp [ih, or_assoc]

namespace State

/-- The result recorded for a node, if it was analysed. -/
def flowAt (s : State) (id : NodeId) : Option NodeFlow :=
  (s.recorded.get? id).getD none

/-- The state with other knowledge about the program. -/
def withContext (s : State) (context : Context) : State :=
  { s with context }

/-- The state with another graph. -/
def withGraph (s : State) (graph : Outlives) : State :=
  { s with context := { s.context with graph } }

end State

variable {s s' : State} {u : Unit}

/-! ## Regions, obligations and captures -/

/-- Stores a member of a value in a container, if the value has the member. -/
def storeFrom (bundle : Bundle) (container : Lifetime) (field : Field) : FlowM Unit :=
  match bundle[field.path]? with
  | some extent => store extent.value container field.ty
  | none => pure ()

/-- A member of a joined value holds that of both sides. -/
theorem joinMember_eq (temp : Path) (positive negative : Bundle) (field : Field) :
    joinMember temp positive negative field = if field.tracked then do
        storeFrom positive ⟨temp ++ field.path, 0, .temp, .temporary⟩ field
        storeFrom negative ⟨temp ++ field.path, 0, .temp, .temporary⟩ field
        return (field.path, .ofValue ⟨temp ++ field.path, 0, .temp, .temporary⟩)
      else return (field.path, .untracked) := by
  unfold joinMember storeFrom
  cases positive[field.path]? <;> cases negative[field.path]? <;> simp

@[simp] theorem runs_modifyContext_iff {f : Context → Context} :
    Runs (modifyContext f) s u s' ↔ s' = s.withContext (f s.context) := by
  simp only [modifyContext, runs_modify_iff]
  exact eq_comm

@[simp] theorem runs_newRoot_iff {origin : Origin} {root : Lifetime} :
    Runs (newRoot path origin) s root s' ↔ root = .root path origin ∧ s' = s.withContext
          { s.context with roots := s.context.roots.insert (.root path origin) } := by
  simp only [newRoot, runs_bind_iff, runs_modifyContext_iff, runs_pure_iff]
  constructor
  · rintro ⟨_, s₁, rfl, rfl, rfl⟩
    exact ⟨rfl, rfl⟩
  · rintro ⟨rfl, rfl⟩
    exact ⟨(), _, rfl, rfl, rfl⟩

@[simp] theorem runs_store_iff {stored container : Lifetime} {ty? : Option Ty} :
    Runs (store stored container ty?) s u s' ↔
      s' = s.withGraph (s.context.graph.store stored container ty?) := by
  simp only [store, runs_modifyContext_iff]
  rfl

@[simp] theorem runs_unify_iff {a b : Lifetime} :
    Runs (unify a b) s u s' ↔ s' = s.withGraph (s.context.graph.unify a b) := by
  simp only [unify, runs_modifyContext_iff]
  rfl

@[simp] theorem runs_expose_iff : Runs (expose path) s u s' ↔
      s' = s.withContext { s.context with exposed := s.context.exposed.insert path } := by
  simp only [expose, runs_modifyContext_iff]

/-! ## The frame -/

@[simp] theorem runs_declare_iff :
    Runs (declare path extent) s u s' ↔ s' = { s with frame := s.frame.declare path extent } := by
  simp only [declare, runs_modify_iff]
  exact eq_comm

@[simp] theorem runs_rebind_iff :
    Runs (rebind path extent) s u s' ↔
      ∃ frame, s.frame.rebind path extent = .ok frame ∧ s' = { s with frame } := by
  simp only [rebind, runs_bind_iff, runs_get_iff, runs_lift_iff, runs_modify_iff]
  constructor
  · rintro ⟨_, _, ⟨rfl, rfl⟩, frame, _, ⟨h, rfl⟩, rfl⟩
    exact ⟨frame, h, rfl⟩
  · rintro ⟨frame, h, rfl⟩
    exact ⟨s, s, ⟨rfl, rfl⟩, frame, s, ⟨h, rfl⟩, rfl⟩

/-- The lifetime of the next version of a variable. -/
def State.nextVersionOf (s : State) (path : Path) : Lifetime :=
  { path, version := s.context.nextVersion, role := .alias, origin := .localValue }

@[simp] theorem runs_newVersion_iff {version : Lifetime} :
    Runs (newVersion path) s version s' ↔
      version = s.nextVersionOf path ∧
        s' = s.withContext { s.context with nextVersion := s.context.nextVersion + 1 } := by
  simp only [newVersion, runs_bind_iff, runs_get_iff, runs_modifyContext_iff, runs_pure_iff]
  constructor
  · rintro ⟨_, _, ⟨rfl, rfl⟩, _, _, rfl, rfl, rfl⟩
    exact ⟨rfl, rfl⟩
  · rintro ⟨rfl, rfl⟩
    exact ⟨s, s, ⟨rfl, rfl⟩, (), _, rfl, rfl, rfl⟩

@[simp] theorem runs_adopt_iff {version slot : Lifetime} : Runs (adopt version slot) s u s' ↔
      ∃ frame, s.frame.rebind version.path ⟨version, slot⟩ = .ok frame ∧
        s' = { s with
          context := { s.context with
            rebound := s.context.rebound ++ [(version.path, version)] }
          frame } := by
  simp only [adopt, runs_bind_iff, runs_rebind_iff, runs_modifyContext_iff]
  constructor
  · rintro ⟨_, _, ⟨frame, h, rfl⟩, rfl⟩
    exact ⟨frame, h, rfl⟩
  · rintro ⟨frame, h, rfl⟩
    exact ⟨(), _, ⟨frame, h, rfl⟩, rfl⟩

@[simp] theorem runs_within_iff {enter : Frame → Frame} {steps : FlowM Unit}
    {changes : PathMap Extent} : Runs (within enter steps) s changes s' ↔ ∃ s₁, Runs steps
    { s with frame := enter s.frame } () s₁ ∧
        changes = s₁.frame.rebindings ∧ s' = { s₁ with frame := s.frame } := by
  simp only [within, runs_bind_iff, runs_get_iff, runs_modify_iff, runs_pure_iff]
  constructor
  · rintro ⟨_, _, ⟨rfl, rfl⟩, _, _, rfl, _, s₁, hsteps, _, _, ⟨rfl, rfl⟩, _, _,
      rfl, rfl, rfl⟩
    exact ⟨s₁, hsteps, rfl, rfl⟩
  · rintro ⟨s₁, hsteps, rfl, rfl⟩
    exact ⟨s, s, ⟨rfl, rfl⟩, (), _, rfl, (), s₁, hsteps, s₁, s₁, ⟨rfl, rfl⟩, (), _,
      rfl, rfl, rfl⟩

/-! ## Results of nodes -/

theorem State.flowAt_eq_some_iff {flow : NodeFlow} :
    s.flowAt id = some flow ↔ s.recorded.get? id = some (some flow) := by
  unfold State.flowAt
  cases h : s.recorded.get? id <;> simp

@[simp] theorem runs_flowOf?_iff {flow? : Option NodeFlow} :
    Runs (flowOf? id) s flow? s' ↔ s.recorded.get? id = some flow? ∧ s' = s := by
  simp only [flowOf?, runs_bind_iff, runs_get_iff, runs_lift_iff, Arena.get]
  constructor
  · rintro ⟨_, _, ⟨rfl, rfl⟩, h, rfl⟩
    split at h <;> simp_all
  · rintro ⟨h, rfl⟩
    exact ⟨_, _, ⟨rfl, rfl⟩, by simp [h], rfl⟩

/-- A part of the result of a node is taken. -/
theorem runs_flowOf?_bind_iff {part : NodeFlow → α}
    {next : Option NodeFlow → FlowM α} {a : α} (hnone : ¬ Runs (next none) s a s')
    (hsome : ∀ flow, next (some flow) = pure (part flow)) :
    Runs (flowOf? id >>= next) s a s' ↔ ∃ flow, s.flowAt id = some flow ∧
    a = part flow ∧ s' = s := by
  simp only [runs_bind_iff, runs_flowOf?_iff, State.flowAt_eq_some_iff]
  constructor
  · rintro ⟨flow?, _, ⟨h, rfl⟩, hrest⟩
    cases flow? with
    | none => exact absurd hrest hnone
    | some flow =>
      rw [hsome, runs_pure_iff] at hrest
      exact ⟨flow, h, hrest.1.symm, hrest.2.symm⟩
  · rintro ⟨flow, h, rfl, rfl⟩
    exact ⟨some flow, _, ⟨h, rfl⟩, by simp [hsome]⟩

@[simp] theorem runs_bundleOf_iff {bundle : Bundle} :
    Runs (bundleOf id) s bundle s' ↔
    ∃ flow, s.flowAt id = some flow ∧ bundle = flow.bundle ∧ s' = s :=
  runs_flowOf?_bind_iff (by simp) fun _ => rfl

@[simp] theorem runs_escapingOf_iff {escaping : PathSet} :
    Runs (escapingOf id) s escaping s' ↔
    ∃ flow, s.flowAt id = some flow ∧ escaping = flow.escaping ∧ s' = s :=
  runs_flowOf?_bind_iff (by simp) fun _ => rfl

@[simp] theorem runs_wholeOf_iff {env : Env} :
    Runs (wholeOf env id) s extent s' ↔
      ∃ flow, s.flowAt id = some flow ∧ flow.bundle.whole? = some extent ∧ s' = s := by
  simp only [wholeOf, runs_bind_iff, runs_bundleOf_iff]
  constructor
  · rintro ⟨_, _, ⟨flow, h, rfl, rfl⟩, hrest⟩
    refine ⟨flow, h, ?_⟩
    cases hwhole : flow.bundle.whole? with
    | none => simp [hwhole] at hrest
    | some e =>
      simp only [hwhole, runs_pure_iff] at hrest
      exact ⟨congrArg some hrest.1, hrest.2.symm⟩
  · rintro ⟨flow, h, hwhole, rfl⟩
    exact ⟨_, _, ⟨flow, h, rfl, rfl⟩, by simp [hwhole]⟩

/-- Recording gives a node without a result its result, and leaves all other nodes alone. -/
theorem runs_record {bundle : Bundle} {escaping : PathSet}
    (h : Runs (record id bundle escaping) s u s') :
    s.flowAt id = none ∧ s'.context = s.context ∧ s'.frame = s.frame ∧
      ∀ other, s'.flowAt other = if other = id then some ⟨bundle, escaping⟩
      else s.flowAt other := by
  simp only [record, runs_bind_iff, runs_flowOf?_iff, runs_ite_iff, runs_get_iff, runs_lift_iff,
    runs_modify_iff, runs_throw_iff] at h
  obtain ⟨flow?, _, ⟨hget, rfl⟩, ⟨_, _, _, hfalse, _⟩ |
    ⟨hnone, _, _, ⟨rfl, rfl⟩, recorded, _, ⟨hset, rfl⟩, rfl⟩⟩ := h
  · exact hfalse.elim
  · have hflow : flow? = none := by simpa using hnone
    subst hflow
    refine ⟨by simp [State.flowAt, hget], rfl, rfl, ?_⟩
    intro other
    simp only [State.flowAt, Arena.get?_set hset other]
    split <;> rfl

/-! ## Steps that only store -/

/-- The step from `s` to `s'` adds the storings of `E` and does nothing else. -/
def StoresOnly (E : Lifetime → Lifetime → Prop) (s s' : State) : Prop :=
  ∃ graph, s' = s.withGraph graph ∧ Outlives.Adds E s.context.graph graph

theorem StoresOnly.refl (hempty : ∀ c x, ¬ E c x) :
    StoresOnly E s s :=
  ⟨s.context.graph, rfl, by simp [Outlives.Adds, hempty]⟩

theorem StoresOnly.congr {E' : Lifetime → Lifetime → Prop} (h : StoresOnly E s s')
    (hiff : ∀ c x, E c x ↔ E' c x) : StoresOnly E' s s' := by
  obtain ⟨graph, rfl, hadds⟩ := h
  exact ⟨graph, rfl, hadds.congr hiff⟩

theorem storesOnly_store {stored container : Lifetime} {ty? : Option Ty}
    (h : Runs (store stored container ty?) s u s') :
    StoresOnly (fun c x => c = container ∧ x = stored) s s' :=
  ⟨_, runs_store_iff.1 h, Outlives.adds_store _ _ _ _⟩

theorem storesOnly_forM {f : α → FlowM Unit}
    {E : α → Lifetime → Lifetime → Prop} {xs : List α}
    (hf : ∀ x ∈ xs, ∀ s s', Runs (f x) s () s' → StoresOnly (E x) s s')
    (h : Runs (xs.forM f) s u s') : StoresOnly (fun c y => ∃ x ∈ xs, E x c y) s s' := by
  induction h using runs_forM_rec with
  | nil => exact StoresOnly.refl (by simp)
  | cons x xs hx _ ih =>
    obtain ⟨G₁, rfl, hadd₁⟩ := hf x List.mem_cons_self _ _ hx
    obtain ⟨G₂, rfl, hadd₂⟩ := ih fun y hy => hf y (List.mem_cons_of_mem _ hy)
    refine ⟨G₂, rfl, (hadd₁.trans hadd₂).congr fun c y => ?_⟩
    simp [List.mem_cons]

theorem storesOnly_mapM {β : Type} {f : α → FlowM β}
    {E : α → Lifetime → Lifetime → Prop} {P : α → β → Prop} {xs : List α}
    {bs : List β}
    (hf : ∀ x ∈ xs, ∀ s b s', Runs (f x) s b s' → P x b ∧ StoresOnly (E x) s s')
    (h : Runs (xs.mapM f) s bs s') :
    List.Forall₂ P xs bs ∧ StoresOnly (fun c y => ∃ x ∈ xs, E x c y) s s' := by
  induction xs generalizing s bs with
  | nil =>
    obtain ⟨rfl, rfl⟩ := runs_mapM_nil_iff.1 h
    exact ⟨.nil, StoresOnly.refl (by simp)⟩
  | cons x xs ih =>
    obtain ⟨b, s₁, rest, hx, hxs, rfl⟩ := runs_mapM_cons_iff.1 h
    obtain ⟨hP, G₁, rfl, hadd₁⟩ := hf x List.mem_cons_self s b s₁ hx
    obtain ⟨hall, G₂, rfl, hadd₂⟩ := ih (fun y hy => hf y (List.mem_cons_of_mem _ hy)) hxs
    refine ⟨.cons hP hall, G₂, rfl, (hadd₁.trans hadd₂).congr fun c y => ?_⟩
    simp [List.mem_cons]

theorem StoresOnly.trans {E' : Lifetime → Lifetime → Prop} {s₁ : State}
    (h : StoresOnly E s s₁) (h' : StoresOnly E' s₁ s') :
    StoresOnly (fun c x => E c x ∨ E' c x) s s' := by
  obtain ⟨G₁, rfl, hadd₁⟩ := h
  obtain ⟨G₂, rfl, hadd₂⟩ := h'
  exact ⟨G₂, rfl, hadd₁.trans hadd₂⟩

theorem env_node_eq_ok_iff {env : Env} {node : Node} :
    env.node id = .ok node ↔ env.owner.nodes.get? id = some node := by
  unfold Env.node Owner.node
  cases env.owner.nodes.get? id <;> simp

theorem flowAt_start (context : Context) (size : Nat) (id : NodeId) :
    State.flowAt (.start context size) id = none := by
  cases hflow : State.flowAt (.start context size) id with
  | none => rfl
  | some flow =>
    rw [State.flowAt_eq_some_iff] at hflow
    simp only [State.start, Arena.replicate, Arena.get?, Array.getElem?_replicate] at hflow
    split at hflow <;> simp at hflow

theorem lookup?_start (context : Context) (size : Nat) (path : Path) :
    (State.start context size).frame.lookup? path = none := by
  simp [State.start, Frame.root, Scope.empty, Frame.lookup?, Frame.scopes]

end Flow
end Regions
