import Regions.Proofs.Bindings

/-!
# Disciplines

A discipline says which lifetimes may occur in a state of the analysis, and which storings between
them. If it allows the lifetimes that transitions make, every state of the analysis keeps to it,
also when the analysis ends early: what holds of all its lifetimes is said once, and no transition
has to be looked at again.

A lifetime of a temporary is made while the own part of the rule of its node runs, and before the
node is recorded. A discipline may therefore depend on the node at work, if there is one, and on the
fields that it has come to.

* `Lifetime.Slotted`: a slot is a region of storage;
* `Discipline`, `Discipline.Inv`: the discipline, and the states that keep to it;
* `Discipline.Extends`: the storings that come with a new version of a variable;
* `lasts_abides`: transitions keep to the discipline;
* `Discipline.inv_of_comesTo`: so does every point of the analysis of a function.
-/

namespace Regions

variable {l stored container : Lifetime} {frame : Frame} {path : Path} {extent : Extent}
  {bundle : Bundle} {field : Field}

/-- A slot is a region of storage. -/
def Lifetime.Slotted (l : Lifetime) : Prop :=
  l.isSlot = true → l = .root l.path .localSlot

theorem Lifetime.slotted_of_origin (h : l.origin ≠ .localSlot) : l.Slotted := by
  intro hslot
  exact absurd (of_decide_eq_true hslot) h

theorem Lifetime.slotted_root (path : Path) (origin : Origin) :
    (Lifetime.root path origin).Slotted := by
  intro hslot
  obtain rfl : origin = .localSlot := of_decide_eq_true hslot
  rfl

theorem Lifetime.slotted_none : Lifetime.none.Slotted := Lifetime.slotted_of_origin (by decide)

/-- What can be looked up after a scope was left is what the outer frame had, or comes from the
scope. -/
theorem Frame.Absorbs.lookup {outer inner : Frame} (h : outer.Absorbs inner frame)
    (hlookup : frame.lookup? path = some extent) :
    outer.lookup? path = some extent ∨ inner.lookup? path = some extent := by
  rw [Frame.lookup?_eq] at hlookup
  rcases h.bindings path with hsame | ⟨changed, hchanged, hsome⟩
  · rw [hsame, h.enclosing] at hlookup
    exact .inl ((Frame.lookup?_eq outer path).trans hlookup)
  · rw [hsome, Option.some_or] at hlookup
    cases hlookup
    exact .inr (Frame.lookup?_of_rebindings hchanged)

namespace Flow

/-! ## Disciplines -/

/-- A node at work, with the fields that are done. -/
abbrev Work := NodeId × List Path

/-- What is at work goes on, or has got its result. -/
def Continues (cur cur' : Option Work) (s : State) : Prop :=
  ∀ id done, cur = some (id, done) → s.flowAt id ≠ none ∨
    ∃ done', cur' = some (id, done') ∧ done ⊆ done'

theorem Continues.refl (cur : Option Work) (s : State) : Continues cur cur s :=
  fun _ done h => .inr ⟨done, h, List.Subset.refl _⟩

theorem Continues.begin (cur : Option Work) (s : State) : Continues none cur s :=
  fun _ _ h => by cases h

/-- The node at work declares a variable, and has come to the path. -/
def Declares (env : Env) (cur : Option Work) (path : Path) : Prop :=
  ∃ id done node x value m, cur = some (id, done) ∧ env.node id = .ok node ∧
    node.expr = .declaration x value ∧ path = x ++ m ∧ m ∈ done

/-- Which lifetimes and storings may occur in a state, while the given node, if any, is at work. -/
structure Discipline (env : Env) where
  Valid : Option Work → State → Lifetime → Prop
  /-- What data may be stored in. -/
  Holder : Option Work → State → Lifetime → Prop
  Edge : Option Work → State → Lifetime → Lifetime → Prop
  /-- The paths that storage of variables may have. -/
  Named : Path → Prop
  /-- The paths of variables whose data may have no lifetime. -/
  Bare : Path → Prop
  /-- How many versions were adopted before. -/
  base : Nat
  /-- The first number that a version may have. -/
  least : Nat
  valid_later : ∀ {cur cur' s s' l}, Grows s s' → Continues cur cur' s' → Valid cur s l →
    Valid cur' s' l
  edge_later : ∀ {cur cur' s s' c x}, Grows s s' → Continues cur cur' s' → Edge cur s c x →
    Edge cur' s' c x
  edge : ∀ {cur s c x}, Holder cur s c → Valid cur s x → c.isNone = false →
    x.isNone = false → Edge cur s c x
  edge_heap : ∀ {cur s x}, Valid cur s x → x.isNone = false → Edge cur s .heap x
  holder_of_valid : ∀ {cur s l}, Valid cur s l → Holder cur s l
  holder_of_edge : ∀ {cur s c x}, Holder cur s c → Edge cur s c x → Holder cur s x
  slotted : ∀ {cur s l}, Valid cur s l → l.Slotted
  named_of_slot : ∀ {cur s l}, Valid cur s l → l.isSlot = true → Named l.path
  valid_none : ∀ {cur s}, Valid cur s .none
  valid_temp : ∀ {s id done} kind m role, role ≠ .root → Valid (some (id, done)) s
    { path := env.tempPath kind id ++ m, role, origin := .temporary }
  valid_region : ∀ {s id done} kind m origin, origin = .temporary ∨ origin = .heap →
    .root (env.tempPath kind id ++ m) origin ∈ s.context.roots →
    Valid (some (id, done)) s (.root (env.tempPath kind id ++ m) origin)
  valid_variable : ∀ {cur s path origin}, Named path → origin = .localSlot ∨
    origin = .localValue →
    .root path origin ∈ s.context.roots → Valid cur s (.root path origin)
  valid_version : ∀ {cur s path version}, Named path →
    version = 0 ∧ Declares env cur path ∨ least ≤ version ∧
    version < s.context.nextVersion →
    Valid cur s { path, version, role := .alias, origin := .localValue }

namespace Discipline

variable {env : Env} {D : Discipline env} {cur cur' : Option Work} {s s' : State} {id : NodeId}

/-- The lifetimes of an extent are allowed. -/
structure Admits (D : Discipline env) (cur : Option Work) (s : State) (extent : Extent) : Prop where
  value : D.Valid cur s extent.value
  slot : D.Valid cur s extent.slot

theorem Admits.later (hgrows : Grows s s') (hcur : Continues cur cur' s')
    (h : D.Admits cur s extent) : D.Admits cur' s' extent :=
  ⟨D.valid_later hgrows hcur h.value, D.valid_later hgrows hcur h.slot⟩

/-- The lifetimes of a bundle are allowed. -/
def Bundled (D : Discipline env) (cur : Option Work) (s : State) (bundle : Bundle) : Prop :=
  ∀ (path : Path) (extent : Extent), bundle[path]? = some extent → D.Admits cur s extent

theorem Bundled.later (hgrows : Grows s s') (hcur : Continues cur cur' s')
    (h : D.Bundled cur s bundle) : D.Bundled cur' s' bundle :=
  fun path extent hget => (h path extent hget).later hgrows hcur

theorem Bundled.tracked (h : D.Bundled cur s bundle) (hl : l ∈ bundle.tracked) :
    D.Valid cur s l ∧ l.isNone = false := by
  obtain ⟨path, extent, hget, rfl, hsome⟩ := Bundle.mem_tracked_iff.1 hl
  exact ⟨(h path extent hget).value, hsome⟩

/-- The extent of a variable: its data is that of the variable itself, and it sits in the slot of
the variable. -/
structure Housed (D : Discipline env) (cur : Option Work) (s : State) (path : Path)
    (extent : Extent) : Prop where
  named : D.Named path
  slot : extent.slot = .root path .localSlot
  validSlot : D.Valid cur s (.root path .localSlot)
  valid : D.Valid cur s extent.value
  own : extent.value.isNone = false → extent.value.path = path ∧
    extent.value.origin = .localValue
  bare : extent.value.isNone = true → D.Bare path

theorem Housed.admits (h : D.Housed cur s path extent) : D.Admits cur s extent :=
  ⟨h.valid, h.slot ▸ h.validSlot⟩

theorem Housed.later (hgrows : Grows s s') (hcur : Continues cur cur' s')
    (h : D.Housed cur s path extent) : D.Housed cur' s' path extent :=
  { h with
    validSlot := D.valid_later hgrows hcur h.validSlot
    valid := D.valid_later hgrows hcur h.valid }

/-- The state keeps to the discipline. -/
structure Inv (D : Discipline env) (cur : Option Work) (s : State) : Prop where
  frame : ∀ path extent, s.frame.lookup? path = some extent → D.Housed cur s path extent
  recorded : ∀ id flow, s.flowAt id = some flow → D.Bundled none s flow.bundle
  graph : ∀ c x, s.context.graph.Holds c x → D.Edge cur s c x
  base : D.base ≤ s.context.rebound.length
  least : D.least ≤ s.context.nextVersion
  rebound : ∀ entry ∈ s.context.rebound.drop D.base, D.Valid cur s entry.2 ∧
    entry.2.isNone = false

namespace Inv

/-- A later state, where all that is new is allowed. -/
theorem next (h : D.Inv cur s) (hgrows : Grows s s') (hcur : Continues cur cur' s')
    (hframe : ∀ path extent, s'.frame.lookup? path = some extent →
      s.frame.lookup? path = some extent ∨ D.Housed cur' s' path extent)
    (hflow : ∀ id flow, s'.flowAt id = some flow → s.flowAt id = some flow ∨
      D.Bundled none s' flow.bundle)
    (hgraph : ∀ c x, s'.context.graph.Holds c x → s.context.graph.Holds c x ∨
      D.Edge cur' s' c x)
    (hlogged : ∀ path version, Logged s s' path version →
      D.Valid cur' s' version ∧ version.isNone = false) : D.Inv cur' s' where
  frame path extent hlookup :=
    (hframe path extent hlookup).elim (fun hold => (h.frame path extent hold).later hgrows hcur)
      fun hnew => hnew
  recorded id flow hid :=
    (hflow id flow hid).elim (fun hold => (h.recorded id flow hold).later hgrows (.refl _ _))
      fun hnew => hnew
  graph c x hx :=
    (hgraph c x hx).elim (fun hold => D.edge_later hgrows hcur (h.graph c x hold)) fun hnew => hnew
  base := Nat.le_trans h.base hgrows.rebound.length_le
  least := Nat.le_trans h.least hgrows.nextVersion
  rebound entry hentry := by
    obtain ⟨new, hnew⟩ := hgrows.rebound
    rw [← hnew, List.drop_append_of_le_length h.base] at hentry
    rcases List.mem_append.1 hentry with hold | hmem
    · exact (h.rebound entry hold).imp_left (D.valid_later hgrows hcur)
    · refine hlogged entry.1 entry.2 ?_
      simpa [Logged, ← hnew] using hmem

/-- A later state with the same variables and results, and with new storings that are allowed. -/
theorem later (h : D.Inv cur s) (hgrows : Grows s s') (hframe : s'.frame = s.frame)
    (hflow : ∀ id, s'.flowAt id = s.flowAt id) (hrebound : s'.context.rebound = s.context.rebound)
    (hgraph : ∀ c x, s'.context.graph.Holds c x → s.context.graph.Holds c x ∨
      D.Edge cur s' c x) :
    D.Inv cur s' :=
  h.next hgrows (.refl _ _) (fun _ _ hlookup => .inl (hframe ▸ hlookup))
    (fun id _ hid => .inl (hflow id ▸ hid)) hgraph fun _ _ hlogged =>
      by simp [Logged, hrebound] at hlogged

/-- Another frame, whose variables keep to the discipline. -/
theorem reframe (h : D.Inv cur s) (hframe : ∀ path extent,
    frame.lookup? path = some extent → D.Housed cur s path extent) : D.Inv cur { s with frame } :=
  h.next (Grows.frame s frame) (.refl _ _) (fun path extent hlookup =>
    .inr ((hframe path extent hlookup).later (Grows.frame s frame) (.refl _ _)))
      (fun _ _ hid => .inl hid)
    (fun _ _ hx => .inl hx) fun _ _ hlogged => by simp [Logged] at hlogged

/-- A scope that is entered shows the variables around it. -/
theorem scope (h : D.Inv cur s) {enter : Frame → Frame}
    (henter : enter = Frame.child ∨ enter = Frame.loopBody) :
    D.Inv cur { s with frame := enter s.frame } := by
  refine h.reframe fun path extent hlookup => h.frame path extent ?_
  rcases henter with rfl | rfl
  · rwa [Frame.lookup?_child] at hlookup
  · rwa [Frame.lookup?_loopBody] at hlookup

theorem unscope {inner : State} (h : D.Inv cur s) (hinner : D.Inv cur inner)
    (hgrows : Grows s inner) (hframe : s.frame.Absorbs inner.frame frame) :
    D.Inv cur { inner with frame } := by
  refine hinner.reframe fun path extent hlookup => ?_
  rcases hframe.lookup hlookup with houter | hlookup
  · exact (h.frame path extent houter).later hgrows (.refl _ _)
  · exact hinner.frame path extent hlookup

theorem turn (h : D.Inv cur s) (hcur : Continues cur cur' s) : D.Inv cur' s :=
  h.next (Grows.refl s) hcur (fun _ _ hlookup => .inl hlookup) (fun _ _ hid => .inl hid)
    (fun _ _ hx => .inl hx) fun _ _ hlogged => by simp [Logged] at hlogged

theorem bundled (h : D.Inv cur s) {flow : NodeFlow} (hid : s.flowAt id = some flow) :
    D.Bundled cur s flow.bundle :=
  (h.recorded id flow hid).later (Grows.refl s) (.begin _ _)

/-- Storings do not lead to what data may not be stored in. -/
theorem holder_of_reaches (h : D.Inv cur s) {k : Lifetime} (hl : D.Holder cur s l)
    (hreach : s.context.graph.Reaches l k) : D.Holder cur s k := by
  induction hreach with
  | refl => exact hl
  | @tail m k _ hstep ih => exact D.holder_of_edge ih (h.graph m k hstep)

theorem store (h : D.Inv cur s) (ty? : Option Ty)
    (hedge : container.isNone = false → stored.isNone = false → D.Edge cur s container stored) :
    D.Inv cur (s.withGraph (s.context.graph.store stored container ty?)) := by
  have hgrows : Grows s (s.withGraph (s.context.graph.store stored container ty?)) :=
    grows_store _ _ _
  refine h.later hgrows rfl (fun _ => rfl) rfl fun c x hx => ?_
  rcases Outlives.holds_store_iff.1 hx with ⟨rfl, rfl, -, hstored, hcontainer⟩ | hold
  · exact .inr (D.edge_later hgrows (.refl _ _) (hedge hcontainer hstored))
  · exact .inl hold

theorem storeValid (h : D.Inv cur s) (hcontainer : D.Holder cur s container)
    (hstored : D.Valid cur s stored) (ty? : Option Ty) :
    D.Inv cur (s.withGraph (s.context.graph.store stored container ty?)) :=
  h.store ty? fun hc hx => D.edge hcontainer hstored hc hx

end Inv

/-! ## New versions -/

/-- The storings of the state, and others between what is allowed and a new version. -/
def Extends (D : Discipline env) (cur : Option Work) (s : State) (version : Lifetime)
    (graph : Outlives) : Prop :=
  ∀ c x, graph.Holds c x → s.context.graph.Holds c x ∨ c.isNone = false ∧
    x.isNone = false ∧ (c = version ∨ D.Valid cur s c) ∧ (x = version ∨ D.Valid cur s x)

namespace Extends

variable {version a b : Lifetime} {graph : Outlives}

theorem refl (D : Discipline env) (cur : Option Work) (s : State) (version : Lifetime) :
    D.Extends cur s version s.context.graph :=
  fun _ _ hx => .inl hx

theorem store (h : D.Extends cur s version graph) (ha : a = version ∨ D.Valid cur s a)
    (hb : b = version ∨ D.Valid cur s b) (ty? : Option Ty) :
    D.Extends cur s version (graph.store a b ty?) := by
  intro c x hx
  rcases Outlives.holds_store_iff.1 hx with ⟨rfl, rfl, -, hstored, hcontainer⟩ | hold
  · exact .inr ⟨hcontainer, hstored, hb, ha⟩
  · exact h c x hold

theorem unify (h : D.Extends cur s version graph) (ha : a = version ∨ D.Valid cur s a)
    (hb : b = version ∨ D.Valid cur s b) : D.Extends cur s version (graph.unify a b) :=
  (h.store ha hb none).store hb ha none

/-- In a later state, where the version is allowed, so are the storings. -/
theorem edge (h : D.Extends cur s version graph) (hgrows : Grows s s')
    (hversion : D.Valid cur s' version) :
    ∀ c x, graph.Holds c x → s.context.graph.Holds c x ∨ D.Edge cur s' c x := by
  have hvalid : ∀ l, l = version ∨ D.Valid cur s l → D.Valid cur s' l := by
    rintro l (rfl | hl)
    · exact hversion
    · exact D.valid_later hgrows (.refl _ _) hl
  intro c x hx
  refine (h c x hx).imp_right fun ⟨hc, hx, hc', hx'⟩ => ?_
  exact D.edge (D.holder_of_valid (hvalid c hc')) (hvalid x hx') hc hx

end Extends

/-- A variable gets a new version in its slot. -/
theorem Inv.adopted (h : D.Inv cur s) {slot : Lifetime} {graph : Outlives}
    (hgrows : Grows s (s.adopted path graph frame)) (hslot : slot = .root path .localSlot)
    (hvalid : D.Valid cur s slot) (hgraph : D.Extends cur s (s.nextVersionOf path) graph)
    (hframe : s.frame.rebind path ⟨s.nextVersionOf path, slot⟩ = .ok frame) :
    D.Inv cur (s.adopted path graph frame) := by
  subst hslot
  have hnamed : D.Named path := D.named_of_slot hvalid rfl
  have hversion : D.Valid cur (s.adopted path graph frame) (s.nextVersionOf path) :=
    D.valid_version hnamed (.inr ⟨h.least, Nat.lt_succ_self _⟩)
  refine h.next hgrows (.refl _ _) (fun other found hlookup => ?_) (fun _ _ hid => .inl hid)
    (hgraph.edge hgrows hversion) fun other version hlogged => ?_
  · rw [show (s.adopted path graph frame).frame = frame from rfl, Frame.lookup?_rebind hframe]
      at hlookup
    split at hlookup
    · rename_i heq
      cases hlookup
      subst heq
      exact .inr
        ⟨hnamed, rfl, D.valid_later hgrows (.refl _ _) hvalid, hversion, fun _ => ⟨rfl, rfl⟩,
        fun hnone => by simp [State.nextVersionOf, Lifetime.isNone] at hnone⟩
    · exact .inl hlookup
  · simp only [Logged, State.adopted, List.drop_left, List.mem_singleton, Prod.mk.injEq] at hlogged
    exact hlogged.2 ▸ ⟨hversion, rfl⟩

theorem Inv.declare (h : D.Inv cur s) (hgrows : Grows s s')
    (hframe : s'.frame = s.frame.declare path extent) (hhoused : D.Housed cur s' path extent)
    (hflow : ∀ id, s'.flowAt id = s.flowAt id) (hrebound : s'.context.rebound = s.context.rebound)
    (hgraph : ∀ c x, s'.context.graph.Holds c x → s.context.graph.Holds c x ∨
      D.Edge cur s' c x) :
    D.Inv cur s' := by
  refine h.next hgrows (.refl _ _) (fun other found hlookup => ?_)
    (fun id _ hid => .inl (hflow id ▸ hid)) hgraph
    fun _ _ hlogged => by simp [Logged, hrebound] at hlogged
  rw [hframe, Frame.lookup?_declare] at hlookup
  split at hlookup
  · rename_i heq
    cases hlookup
    exact .inr (heq ▸ hhoused)
  · exact .inl hlookup

theorem Inv.rebindLocal (h : D.Inv cur s) {slot assigned : Lifetime} {ty : Ty}
    (hslot : D.Valid cur s slot) (hlocal : slot.isSlot = true) (hassigned : D.Valid cur s assigned)
    (hframe : s.frame.rebind slot.path ⟨s.nextVersionOf slot.path, slot⟩ = .ok frame) :
    D.Inv cur (s.rebinding slot assigned ty frame) := by
  refine h.adopted (grows_rebinding s slot assigned ty frame) (D.slotted hslot hlocal)
    hslot ?_ hframe
  exact ((Extends.refl D cur s _).unify (.inl rfl) (.inr hassigned)).store (.inl rfl) (.inr hslot) _

theorem Inv.enterLoop (h : D.Inv cur s) (hextent : D.Housed cur s path extent)
    (hframe : s.frame.rebind path ⟨s.nextVersionOf path, extent.slot⟩ = .ok frame) :
    D.Inv cur (s.entering path extent frame) := by
  have hslot := hextent.admits.slot
  refine h.adopted (grows_entering s path extent frame) hextent.slot hslot ?_ hframe
  exact ((Extends.refl D cur s _).store (.inr hextent.valid) (.inl rfl) _).store (.inl rfl)
    (.inr hslot) _

theorem Inv.join (h : D.Inv cur s) {positive negative : PathMap Extent} {before : Extent}
    (hlookup : s.frame.lookup? path = some before)
    (hframe : s.frame.rebind path ⟨s.nextVersionOf path, before.slot⟩ = .ok frame)
    (hpositive : ∀ extent, positive[path]? = some extent → D.Valid cur s extent.value)
    (hnegative : ∀ extent, negative[path]? = some extent → D.Valid cur s extent.value) :
    D.Inv cur (s.joining path positive negative before frame) := by
  have hbefore := h.frame path before hlookup
  have hslot := hbefore.admits.slot
  -- Either side has a version of the variable, be it the one from before the branches.
  have hside : ∀ changes : PathMap Extent, (∀ extent, changes[path]? = some extent →
      D.Valid cur s extent.value) → D.Valid cur s (changes[path]?.getD before).value := by
    intro changes hchanges
    cases hget : changes[path]? with
    | none => exact hbefore.valid
    | some extent => exact hchanges extent hget
  refine h.adopted (grows_joining s path positive negative before frame) hbefore.slot
    hslot ?_ hframe
  exact (((Extends.refl D cur s _).store (.inr (hside positive hpositive)) (.inl rfl) _).store
    (.inr (hside negative hnegative)) (.inl rfl) _).store (.inl rfl) (.inr hslot) _

/-- The variables that the body declares may have storage, and data without lifetimes where there
are no references. -/
def NamesVariables (D : Discipline env) : Prop :=
  ∀ id node path value, env.node id = .ok node → node.expr = .declaration path value →
    (∀ m, D.Named (path ++ m)) ∧ ∀ ty fields, env.typeOf value = .ok ty →
    env.fields ty = .ok fields →
      ∀ field ∈ fields, field.tracked = false → D.Bare (path ++ field.path)

/-- So may the parameters. -/
def NamesParameters (D : Discipline env) (parameters : List Parameter) : Prop :=
  ∀ parameter ∈ parameters, (∀ m, D.Named (parameter.path ++ m)) ∧
    ∀ fields, env.fields parameter.ty = .ok fields →
    ∀ field ∈ fields, field.tracked = false → D.Bare (parameter.path ++ field.path)

/-- A discipline that looks at no paths. -/
theorem NamesVariables.of_forall (hnamed : ∀ path, D.Named path) (hbare : ∀ path, D.Bare path) :
    D.NamesVariables ∧ ∀ parameters, D.NamesParameters parameters :=
  ⟨fun _ _ _ _ _ _ => ⟨fun _ => hnamed _, fun _ _ _ _ _ _ _ => hbare _⟩,
    fun _ _ _ => ⟨fun _ => hnamed _, fun _ _ _ _ _ => hbare _⟩⟩

theorem Inv.declareParameterMember (h : D.Inv cur s) (hnamed : D.Named (path ++ field.path))
    (hbare : field.tracked = false → D.Bare (path ++ field.path))
    (hrun : Runs (declareParameterMember path field) s () s') : D.Inv cur s' := by
  have hgrows := grows_of_match env ⟨0⟩ (Coupling.declareParameterMember trivial) _ _ _ hrun
  obtain ⟨-, rfl⟩ | ⟨huntracked, rfl⟩ := runs_declareParameterMember hrun
  · refine h.declare hgrows rfl ⟨hnamed, rfl, D.valid_variable hnamed (.inl rfl) (by simp),
      D.valid_variable hnamed (.inr rfl) (by simp), fun _ => ⟨rfl, rfl⟩,
      fun hnone => by simp [Lifetime.isNone, Lifetime.root] at hnone⟩ (fun _ =>
      rfl) rfl fun c x hx => ?_
    rcases Outlives.holds_store_iff.1 hx with ⟨rfl, rfl, -⟩ | hold
    · exact .inr (D.edge (D.holder_of_valid (D.valid_variable hnamed (.inl rfl) (by simp)))
        (D.valid_variable hnamed (.inr rfl) (by simp)) rfl rfl)
    · exact .inl hold
  · exact h.declare hgrows rfl
      ⟨hnamed, rfl, D.valid_variable hnamed (.inl rfl) (by simp), D.valid_none,
      fun hsome => by simp [Lifetime.isNone, Lifetime.none] at hsome,
      fun _ => hbare ((Bool.not_eq_true _).mp huntracked)⟩ (fun _ =>
      rfl) rfl fun _ _ hx => .inl hx

end Discipline

/-! ## Transitions -/

section Transitions

variable {X : Setting} {p p' : Progress X} {s s' : State} {D : Discipline X.env} {env : Env}
  {task : Task X}

def Task.work (task : Task X) : Work := (task.id, task.done)

theorem Task.continues_did (task : Task X) (path : Path) (s : State) :
    Continues (some task.work) (some (task.did path).work) s := by
  rintro _ _ ⟨⟩
  exact .inr ⟨_, rfl, List.subset_append_left _ _⟩

theorem Pointer.valid {D : Discipline env} {cur : Option Work} {expr : Expr}
    {kind : String} {pointer : Extent} (h : Pointer s expr kind pointer) (hs : D.Inv cur s) :
    D.Valid cur s pointer.value := by
  cases h with
  | dereference hflow hwhole | index hflow hwhole => exact (hs.bundled hflow _ _ hwhole).value

/-- What the node at work stores is allowed, and may be stored there. -/
theorem Stores.valid (h : Stores s task container stored)
    (hs : D.Inv (some task.work) s) (hsince : task.since.graph.Below s.context.graph) :
    D.Holder (some task.work) s container ∧ D.Valid (some task.work) s stored := by
  cases h with
  | read _ hpointer _ _ _ hregion =>
    exact ⟨D.holder_of_valid (hpointer.valid hs), D.valid_region _ _ _ (.inl rfl) hregion⟩
  | written _ hpointer _ _ _ hholder =>
    exact ⟨hs.holder_of_reaches (D.holder_of_valid (hpointer.valid hs)) (hholder.mono hsince),
      D.valid_temp _ _ _ (by simp)⟩
  | inserted _ _ _ hflow hdata =>
    have hliteral : D.Valid (some task.work) s
        ⟨X.env.tempPath "struct" task.id ++ .whole, 0, .temp, .temporary⟩ :=
      D.valid_temp _ _ _ (by simp)
    rw [Path.append_whole] at hliteral
    exact ⟨D.holder_of_valid hliteral, ((hs.bundled hflow).tracked hdata).1⟩
  | initialized _ _ hflow hextent hregion =>
    rw [Env.allocation, ← Path.append_whole (X.env.tempPath "new" task.id)] at hregion ⊢
    exact ⟨D.holder_of_valid (D.valid_region _ _ _ (.inr rfl) hregion),
      (hs.bundled hflow _ _ hextent).value⟩
  | joined _ _ _ hflow hextent =>
    exact ⟨D.holder_of_valid (D.valid_temp _ _ _ (by simp)),
      (hs.bundled hflow _ _ hextent).value⟩
  | mixed _ _ _ _ _ hstored hcontainer _ _ hvalue hholder =>
    exact ⟨D.holder_of_valid ((hs.bundled hcontainer).tracked hholder).1,
      ((hs.bundled hstored).tracked hvalue).1⟩

theorem Result.bundled {D : Discipline env} {id : NodeId} {ty : Ty}
    {position : Position} {expr : Expr} (h : Result env s id ty position expr bundle)
    {done : List Path} (hs : D.Inv (some (id, done)) s) : D.Bundled (some (id, done)) s bundle := by
  intro m extent hm
  have hadmits :=
    h.inherits (P := D.Valid (some (id, done)) s) (fun l hl => ?_) (fun path extent hlookup => ?_)
    (fun child _ flow hflow m extent hextent => ?_) hm
  · exact ⟨hadmits.1, hadmits.2⟩
  · cases hl with
    | none => exact D.valid_none
    | temp kind m hrole => exact D.valid_temp _ _ _ hrole
    | region kind m horigin hregion => exact D.valid_region _ _ _ horigin hregion
  · exact ⟨(hs.frame _ _ hlookup).admits.value, (hs.frame _ _ hlookup).admits.slot⟩
  · exact ⟨(hs.bundled hflow _ _ hextent).value, (hs.bundled hflow _ _ hextent).slot⟩

theorem Discipline.Inv.record {D : Discipline env} {id : NodeId} {done : List Path}
    {escaping : PathSet} (h : D.Inv (some (id, done)) s)
    (hbundle : D.Bundled (some (id, done)) s bundle)
    (hrun : Runs (Flow.record id bundle escaping) s () s') : D.Inv none s' := by
  have hgrows := Grows.of_record hrun
  obtain ⟨-, hcontext, hframe, hflow⟩ := runs_record hrun
  have hcur : Continues (some (id, done)) none s' := by
    rintro _ _ ⟨⟩
    exact .inl (by simp [hflow])
  refine h.next hgrows hcur (fun _ _ hlookup => .inl (hframe ▸ hlookup))
    (fun other flow hother => ?_)
    (fun _ _ hx => .inl (hcontext ▸ hx)) fun _ _ hlogged => by simp [Logged, hcontext] at hlogged
  rw [hflow other] at hother
  split at hother
  · cases hother
    exact .inr (hbundle.later hgrows hcur)
  · exact .inl hother

/-- The state keeps to the discipline, and has what the node at work has found. -/
structure Abides (D : Discipline X.env) (p : Progress X) (s : State) : Prop where
  inv : D.Inv (p.task.map Task.work) s
  since : ∀ task, p.task = some task → task.since.graph.Below s.context.graph

theorem Abides.of_inv (hp : p.task = none) (h : D.Inv none s) : Abides D p s where
  inv := by rwa [hp]
  since := by simp [hp]

theorem Abides.inv_of_idle (h : Abides D p s) (hp : p.task = none) : D.Inv none s := by
  have hinv := h.inv
  rwa [hp] at hinv

theorem Assigning.admits {place new : Extent} {cur : Option Work}
    (h : Assigning s task field place new) (hs : D.Inv cur s) :
    D.Admits cur s place ∧ D.Valid cur s new.value := by
  obtain ⟨target, value, places, assigned, ty, fields, -, htarget, hvalue, -, -, -, hplace,
    hnew⟩ := h.operands
  exact ⟨hs.bundled htarget _ _ hplace, (hs.bundled hvalue _ _ hnew).value⟩

section

variable (hnames : D.NamesVariables) (hparameters : D.NamesParameters X.parameters)

include hnames

/-- A field of a variable that is declared may have storage. -/
theorem Declaring.named {initial? : Option Extent}
    (h : Declaring s task path field initial?) : D.Named (path ++ field.path) ∧
      (field.tracked = false → D.Bare (path ++ field.path)) := by
  obtain ⟨value, flow, ty, fields, hexpr, -, hty, hfields, ⟨before, after, hsplit, -⟩, -⟩ :=
    h.operands
  obtain ⟨hnamed, hbare⟩ := hnames task.id task.node path value task.found hexpr
  exact ⟨hnamed _, hbare ty fields hty hfields field (by simp [hsplit])⟩

include hparameters

theorem Step.inv (h : Step X p s p' s') (hs : Abides D p s) : D.Inv (p'.task.map Task.work) s' := by
  have hgrows := h.grows
  have hinv := hs.inv
  cases h with
  | begin => exact hinv.turn (.begin _ _)
  | note | region | expose => exact hinv.later hgrows rfl (fun _ => rfl) rfl fun _ _ hx => .inl hx
  | store ty? hstores =>
    obtain ⟨hcontainer, hstored⟩ := hstores.valid hinv (hs.since _ rfl)
    exact hinv.storeValid hcontainer hstored ty?
  | @declared task joins s path field initial hdeclaring htracked hslot =>
    have hinv := hinv.turn (task.continues_did field.path s)
    obtain ⟨hnamed, -⟩ := hdeclaring.named hnames
    obtain ⟨value, flow, ty, fields, hexpr, hflow, -, -, -, hinitial⟩ := hdeclaring.operands
    have hversion : ∀ s, D.Valid (some (task.did field.path).work) s
        (.first (path ++ field.path)) :=
      fun s => D.valid_version hnamed
        (.inl ⟨rfl, task.id, (task.did field.path).done, task.node, path, value,
        field.path, rfl, task.found, hexpr, rfl, by simp [Task.did]⟩)
    have hvalid : D.Valid (some (task.did field.path).work) s
        (.root (path ++ field.path) .localSlot) :=
      D.valid_variable hnamed (.inl rfl) hslot
    refine hinv.declare hgrows rfl
      ⟨hnamed, rfl, D.valid_later hgrows (.refl _ _) hvalid, hversion _,
      fun _ => ⟨rfl, rfl⟩, fun hnone =>
      by simp [Lifetime.first, Lifetime.isNone] at hnone⟩ (fun _ => rfl) rfl ?_
    have hextends := (Discipline.Extends.refl D _ s (.first (path ++ field.path))).unify (.inl rfl)
      (.inr (hinv.bundled hflow _ _ hinitial.symm).value)
    exact (hextends.store (.inl rfl) (.inr hvalid) _).edge hgrows (hversion _)
  | @plain task joins s path field initial? hdeclaring huntracked hslot =>
    obtain ⟨hnamed, hbare⟩ := hdeclaring.named hnames
    exact (hinv.turn (task.continues_did field.path s)).declare hgrows rfl ⟨hnamed, rfl,
      D.valid_variable hnamed (.inl rfl) hslot, D.valid_none,
      fun hsome => by simp [Lifetime.isNone, Lifetime.none] at hsome, fun _ => hbare huntracked⟩
      (fun _ => rfl) rfl fun _ _ hx => .inl hx
  | @rebound task joins s field place new frame hassigning hslot _ hframe =>
    have hinv := hinv.turn (task.continues_did field.path s)
    obtain ⟨hplace, hnew⟩ := hassigning.admits hinv
    exact hinv.rebindLocal hplace.slot hslot hnew hframe
  | @hidden task joins s field place new hassigning hslot _ =>
    have hinv := hinv.turn (task.continues_did field.path s)
    obtain ⟨hplace, hnew⟩ := hassigning.admits hinv
    refine hinv.later hgrows rfl (fun _ => rfl) rfl ?_
    have hextends :=
      (Discipline.Extends.refl D _ s (s.nextVersionOf place.slot.path)).unify (.inl rfl) (.inr hnew)
    exact (hextends.store (.inl rfl) (.inr hplace.slot) _).edge hgrows
      (D.valid_version (D.named_of_slot hplace.slot hslot)
        (.inr ⟨hinv.least, Nat.lt_succ_self _⟩))
  | @through task joins s field place new ty? hassigning =>
    have hinv := hinv.turn (task.continues_did field.path s)
    obtain ⟨hplace, hnew⟩ := hassigning.admits hinv
    exact hinv.storeValid (D.holder_of_valid hplace.value) hnew ty?
  | skip => exact hinv.turn (Task.continues_did _ _ _)
  | record hresult hrun => exact hinv.record (hresult.bundled hinv) hrun
  | parameter hparameter hfields hfield hrun =>
    obtain ⟨hnamed, hbare⟩ := hparameters _ hparameter
    exact hinv.declareParameterMember (hnamed _) (hbare _ hfields _ hfield) hrun
  | entered _ _ _ _ hlookup _ _ hframe => exact hinv.enterLoop (hinv.frame _ _ hlookup) hframe
  | returned ty? hflow hvalue =>
    obtain ⟨hvalid, hsome⟩ := (hinv.bundled hflow).tracked hvalue
    exact hinv.store ty? fun _ _ => D.edge_heap hvalid hsome

theorem Step.abides (h : Step X p s p' s') (hs : Abides D p s) : Abides D p' s' :=
  ⟨h.inv hnames hparameters hs, h.since hs.since⟩

theorem lasts_abides : Lasts X (fun _ _ => True) (Abides D) := by
  -- What was logged since an earlier state is allowed, since the discipline looks back further.
  have hlogged : ∀ {p₁ : Progress X} {s₁ : State} {path : Path} {version : Lifetime},
    Abides D p₁ s₁ →
      p₁.task = none → ∀ {p s}, Abides D p s → Logged s s₁ path version →
      D.Valid none s₁ version :=
    fun hs₁ htask _ _ hs hversion => ((hs₁.inv_of_idle htask).rebound _
      (List.drop_subset_drop_left _ hs.inv.base hversion)).1
  refine ⟨fun hstep _ hs => hstep.abides hnames hparameters hs, fun htask henter hs => ?_,
    fun htask htask' hgrows hframe hs hs' => ?_, fun htask hjoining _ hs₀ hs => ?_,
    fun ty? htask _ hentered hversion _ hs₀ hs => ?_⟩
  · exact .of_inv htask ((hs.inv_of_idle htask).scope henter)
  · exact .of_inv htask' ((hs.inv_of_idle htask).unscope (hs'.inv_of_idle htask') hgrows hframe)
  · exact .of_inv rfl ((hs.inv_of_idle htask).join hjoining.lookup hjoining.rebind
      (fun extent hextent => hlogged hs htask hs₀ (hjoining.loggedPositive extent hextent))
      fun extent hextent => hlogged hs htask hs₀ (hjoining.loggedNegative extent hextent))
  · exact .of_inv htask ((hs.inv_of_idle htask).storeValid
      (D.holder_of_valid (hlogged hs htask hs₀ hentered.1)) (hlogged hs htask hs₀ hversion) ty?)

end

end Transitions

/-! ## Runs -/

namespace Discipline

variable {env : Env} {D : Discipline env} {s s' : State} {id : NodeId} {function : Function}
  {context : Context}

theorem inv_of_analyzeNode (hnames : D.NamesVariables) (hs : D.Inv none s) {depth : Nat}
    {position : Position} (hrun : Runs (analyzeNode env depth position id) s () s') :
    D.Inv none s' := by
  obtain ⟨p', hp', hsteps⟩ := steps_of_analyzeNode [] hrun
  exact ((lasts_abides hnames (by simp [NamesParameters, Setting.anywhere])).steps hsteps
    (.of_inv rfl hs)).inv_of_idle hp'

theorem inv_of_declareParameters (hnames : D.NamesVariables)
    (hparameters : D.NamesParameters function.parameters) (hs : D.Inv none s)
    (hrun : Runs (declareParameters env function.parameters) s () s') : D.Inv none s' := by
  obtain ⟨p', hp', hsteps⟩ := steps_of_declareParameters hrun
  exact ((lasts_abides hnames hparameters).steps hsteps (.of_inv rfl hs)).inv_of_idle hp'

theorem inv_of_analyzeFunction (hnames : D.NamesVariables)
    (hparameters : D.NamesParameters function.parameters) (hs : D.Inv none s)
    (hrun : Runs (analyzeFunction env function) s () s') : D.Inv none s' := by
  obtain ⟨p', hp', hsteps⟩ := steps_of_analyzeFunction hrun
  exact ((lasts_abides hnames hparameters).steps hsteps (.of_inv rfl hs)).inv_of_idle hp'

/-- At the start of a function only the storings of the functions before it are there. -/
theorem inv_start {size : Nat} (hbase : D.base = context.rebound.length)
    (hleast : D.least ≤ context.nextVersion)
    (hgraph : ∀ c x, context.graph.Holds c x → D.Edge none (.start context size) c x) :
    D.Inv none (.start context size) where
  frame path extent hlookup := by
    rw [lookup?_start] at hlookup
    cases hlookup
  recorded id flow hid := by
    rw [flowAt_start] at hid
    cases hid
  graph := hgraph
  base := Nat.le_of_eq hbase
  least := hleast
  rebound entry hentry := by
    rw [hbase] at hentry
    simp [State.start] at hentry

/-- Every point of the analysis of a function keeps to the discipline. -/
theorem inv_of_comesTo (hnames : D.NamesVariables)
    (hparameters : D.NamesParameters function.parameters)
    (hstart : D.Inv none (.start context env.owner.nodes.size))
    (h : ComesTo env function context id s) :
    Grows (.start context env.owner.nodes.size) s ∧ D.Inv none s := by
  obtain ⟨p', hp', hinside⟩ := h.passesBy.inside
  exact ⟨hinside.grows,
    ((lasts_abides hnames hparameters).inside hinside (.of_inv rfl hstart)).inv_of_idle hp'⟩

end Discipline
end Flow
end Regions
