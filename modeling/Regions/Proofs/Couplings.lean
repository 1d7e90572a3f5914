import Regions.Proofs.Renumbering
import Regions.Proofs.Steps

/-!
# Two runs side by side

Two runs of the analysis, possibly from different states, go alike step by step: what the second one
has is what the first one has, up to the numbers of versions. What is known about two such runs is
taken together here, so that the rules of the analysis need to be gone through only once.

* `Coupling`: which states and which steps of two runs correspond to each other, and what that comes
  to for the elementary steps;
* `Coupling.Match`: steps that correspond to each other and have no result.
-/

namespace Regions.Flow

open Std

/-- Two runs of the analysis of a node, of which only `id` may get its result. -/
structure Coupling (env : Env) (id : NodeId) where
  /-- How many more versions were given out before the second run. -/
  ahead : Nat
  /-- The paths that the runs speak of. -/
  Ours : Path → Prop
  /-- The lifetimes that the runs speak of. -/
  Known : Lifetime → Prop
  /-- The states of the two runs correspond to each other. -/
  Sim : State → State → Prop
  /-- The two steps correspond to each other, with results that are related. -/
  Agree : ∀ {α : Type}, FlowM α → FlowM α → (α → α → Prop) → Prop
  /-- The runs speak of the variables that the nodes name, and of their members. -/
  names : ∀ {other node path}, env.node other = .ok node →
    (node.expr = .var path ∨ ∃ value, node.expr = .declaration path value) →
    ∀ m, Ours (path ++ m)
  ours_tempPath : ∀ kind m, Ours (env.tempPath kind id ++ m)
  ours : ∀ {l}, Known l → l.isNone = false → Ours l.path
  known_none : Known .none
  known_region : ∀ kind, Known (.root (env.tempPath kind id) .heap)
  /-- Only versions of variables have numbers. -/
  known : ∀ {l}, Ours l.path → l.origin ≠ .heap →
    (l.version ≠ 0 → l.role = .alias ∧ l.origin = .localValue) → Known l
  pure : ∀ {α : Type} {R : α → α → Prop} {a b : α}, R a b → Agree (pure a) (pure b) R
  bind : ∀ {α β : Type} {R : α → α → Prop} {Q : β → β →
    Prop} {step step' : FlowM α} {next next' : α → FlowM β},
    Agree step step' R → (∀ a b, R a b → Agree (next a) (next' b) Q) →
    Agree (step >>= next) (step' >>= next') Q
  throw : ∀ {α : Type} {R : α → α → Prop} {abort : Abort}, Agree (throw abort)
    (throw abort) R
  weaken : ∀ {α : Type} {R R' : α → α → Prop} {step step' : FlowM α},
    Agree step step' R → (∀ a b, R a b → R' a b) → Agree step step' R'
  get : Agree get get Sim
  flowOf? : ∀ {node}, Agree (flowOf? node) (flowOf? node) fun a b =>
    b = a.map (NodeFlow.renumber ahead) ∧
    ∀ flow ∈ a, (∀ (path : Path) (extent : Extent), flow.bundle[path]? = some extent →
      Known extent.value ∧ Known extent.slot) ∧ ∀ path ∈ flow.escaping, Ours path
  newRoot : ∀ {path origin}, Agree (newRoot path origin) (newRoot path origin) fun a b =>
    b = a ∧ a = .root path origin
  store : ∀ {stored container ty?}, Known stored → Known container ∨ container = .heap →
    Agree (store stored container ty?)
    (store (stored.renumber ahead) (container.renumber ahead) ty?) fun _ _ => True
  storeInSupport : ∀ {s t written l}, Sim s t → Known written → Known l →
    Agree ((s.context.graph.supportOf l).toList.forM fun holder => Flow.store written holder)
      ((t.context.graph.supportOf (l.renumber ahead)).toList.forM fun holder =>
        Flow.store (written.renumber ahead) holder) fun _ _ => True
  expose : ∀ {path}, Ours path → Agree (expose path) (expose path) fun _ _ => True
  capture : ∀ {captured holder}, Ours holder → (∀ path ∈ captured, Ours path) →
    Agree (capture captured holder) (capture captured holder) fun _ _ => True
  log : ∀ {write : HeapWrite}, Known write.container → Known write.stored →
    Agree
    (modifyContext fun context => { context with heapWrites := context.heapWrites ++ [write] })
      (modifyContext fun context =>
        { context with heapWrites := context.heapWrites ++ [write.renumber ahead] })
      fun _ _ => True
  declare : ∀ {path extent}, Ours path → Known extent.value ∧ Known extent.slot →
    Agree (declare path extent) (declare path (extent.renumber ahead)) fun _ _ => True
  rebind : ∀ {path extent}, Ours path → Known extent.value ∧ Known extent.slot →
    Agree (rebind path extent) (rebind path (extent.renumber ahead)) fun _ _ => True
  newVersion : ∀ {path}, Ours path → Agree (newVersion path) (newVersion path) fun a b =>
    b = a.renumber ahead ∧ Known a ∧ a.isNone = false
  adopt : ∀ {version slot}, Known version → version.isNone = false → Known slot →
    Agree (adopt version slot) (adopt (version.renumber ahead) (slot.renumber ahead))
    fun _ _ => True
  within : ∀ {enter steps steps'}, enter = Frame.child ∨ enter = Frame.loopBody →
    Agree steps steps' (fun _ _ => True) →
    Agree (within enter steps) (within enter steps') fun a b =>
      b = Bundle.renumber ahead a ∧
        ∀ (path : Path) (extent : Extent), a[path]? = some extent →
        Ours path ∧ Known extent.value ∧ Known extent.slot
  record : ∀ {bundle : Bundle} {escaping},
    (∀ (path : Path) (extent : Extent), bundle[path]? = some extent →
      Known extent.value ∧ Known extent.slot) → (∀ path ∈ escaping, Ours path) →
    Agree (record id bundle escaping) (record id (Bundle.renumber ahead bundle) escaping)
    fun _ _ => True
  frame : ∀ {s t}, Sim s t → t.frame = s.frame.renumber ahead
  bindings : ∀ {s t path extent}, Sim s t → s.frame.lookup? path = some extent →
    Ours path ∧ Known extent.value ∧ Known extent.slot
  exposed : ∀ {s t path}, Sim s t → Ours path →
    t.context.isExposed path = s.context.isExposed path
  captured : ∀ {s t path}, Sim s t → Ours path →
    t.context.captures.capturedBy path = s.context.captures.capturedBy path
  rootsOf : ∀ {s t l}, Sim s t → Known l →
    t.context.graph.rootsOf (l.renumber ahead) = s.context.graph.rootsOf l
  backed : ∀ {s t l}, Sim s t → Known l →
    isHeapBacked t.context.graph (l.renumber ahead) = isHeapBacked s.context.graph l
  /-- The slots that stand for the same data are the same in both runs. -/
  slots : ∀ {s t l}, Sim s t → Known l →
    (t.context.graph.equivalents (l.renumber ahead)).toList.filter Lifetime.isSlot =
      (s.context.graph.equivalents l).toList.filter Lifetime.isSlot
  /-- What the second run adopts in a part of the analysis is what the first one adopts. -/
  rebound : ∀ {s t s₁ t₁}, Sim s t → Sim s₁ t₁ →
    t₁.context.rebound.drop t.context.rebound.length =
    (s₁.context.rebound.drop s.context.rebound.length).map fun entry =>
      (entry.1, entry.2.renumber ahead)
  known_rebound : ∀ {s t}, Sim s t → ∀ entry ∈ s.context.rebound, Known entry.2
  heapWrites : ∀ {s t s₁ t₁}, Sim s t → Sim s₁ t₁ →
    t₁.context.heapWrites.drop t.context.heapWrites.length =
    (s₁.context.heapWrites.drop s.context.heapWrites.length).map (HeapWrite.renumber ahead)
  known_heapWrites : ∀ {s t}, Sim s t →
    ∀ write ∈ s.context.heapWrites, Known write.container ∧ Known write.stored

namespace Coupling

variable {env : Env} {id : NodeId} {C : Coupling env id} {l : Lifetime} {path : Path} {α β : Type}
  {R : α → α → Prop} {Q : β → β → Prop}

/-! ## Data of the runs -/

/-- The extent is made of lifetimes that the runs speak of. -/
def Admits (C : Coupling env id) (extent : Extent) : Prop :=
  C.Known extent.value ∧ C.Known extent.slot

theorem admits_ofValue (h : C.Known l) : C.Admits (.ofValue l) := ⟨h, C.known_none⟩

theorem admits_untracked : C.Admits .untracked := admits_ofValue C.known_none

/-- The bundle is made of such lifetimes. -/
def Bundled (C : Coupling env id) (bundle : Bundle) : Prop :=
  ∀ (path : Path) (extent : Extent), bundle[path]? = some extent → C.Admits extent

theorem bundled_ofList {entries : List (Path × Extent)}
    (h : ∀ entry ∈ entries, C.Admits entry.2) : C.Bundled (.ofList entries compare) :=
  fun _ _ hget => h _ (mem_of_getElem?_ofList hget)

theorem Bundled.tracked {bundle : Bundle} (h : C.Bundled bundle) (hl : l ∈ bundle.tracked) :
    C.Known l := by
  obtain ⟨path, extent, hget, rfl, -⟩ := Bundle.mem_tracked_iff.1 hl
  exact (h path extent hget).1

/-- The storage or the data of a variable. -/
theorem known_variable {origin : Origin} (hpath : C.Ours path) (horigin : origin ≠ .heap) :
    C.Known (.root path origin) := C.known hpath horigin fun h => absurd rfl h

theorem known_version {version : Nat} (hpath : C.Ours path) :
    C.Known { path, version, role := .alias, origin := .localValue } :=
    C.known hpath (by simp) fun _ => ⟨rfl, rfl⟩

theorem known_temp {role : Role} (kind : String) (m : Path) :
    C.Known { path := env.tempPath kind id ++ m, role, origin := .temporary } :=
  C.known (C.ours_tempPath kind m) (by simp) fun h => absurd rfl h

/-! ## Building steps -/

/-- The two steps correspond to each other, and have no result. -/
abbrev Match (C : Coupling env id) (step step' : FlowM Unit) : Prop :=
  C.Agree step step' fun _ _ => True

theorem done : C.Match (Pure.pure ()) (Pure.pure ()) := C.pure trivial

/-- A check whose result in the second run is the result of the first, renumbered. -/
theorem liftMap {result result' : Except Fault α} {f : α → α} (heq : result' = result.map f)
    (h : ∀ a, result = .ok a → R a (f a)) : C.Agree (liftM result) (liftM result') R := by
  subst heq
  cases result with
  | error fault => exact C.throw
  | ok a => exact C.pure (h a rfl)

theorem lift {result : Except Fault α} :
    C.Agree (liftM result) (liftM result) fun a b => a = b ∧ result = .ok a :=
  liftMap (f := fun a => a) (by cases result <;> rfl) fun _ h => ⟨rfl, h⟩

theorem bindLift {result : Except Fault α} {next next' : α → FlowM β}
    (h : ∀ a, result = .ok a → C.Agree (next a) (next' a) Q) :
    C.Agree ((liftM result : FlowM α) >>= next) ((liftM result : FlowM α) >>= next') Q := by
  refine C.bind lift fun a _ ha => ?_
  obtain ⟨rfl, ha⟩ := ha
  exact h a ha

/-- The second run goes on with what the first one has found, renumbered. -/
theorem bindMap {step step' : FlowM α} {f : α → α} {P : α → Prop}
    {next next' : α → FlowM β} (hstep : C.Agree step step' fun a b => b = f a ∧ P a)
    (h : ∀ a, P a → C.Agree (next a) (next' (f a)) Q) :
    C.Agree (step >>= next) (step' >>= next') Q := by
  refine C.bind hstep fun a _ ha => ?_
  obtain ⟨rfl, ha⟩ := ha
  exact h a ha

theorem throwThen {abort : Abort} {next next' : α → FlowM β} :
    C.Agree ((MonadExcept.throw abort : FlowM α) >>= next)
    ((MonadExcept.throw abort : FlowM α) >>= next') Q :=
  C.bind (R := fun _ _ => False) C.throw fun _ _ h => h.elim

theorem discard {step step' : FlowM α} (h : C.Agree step step' R) :
    C.Match (Functor.discard step) (Functor.discard step') := by
  change C.Agree ((fun _ => PUnit.unit) <$> step) ((fun _ => PUnit.unit) <$> step') _
  rw [← bind_pure_comp, ← bind_pure_comp]
  exact C.bind h fun _ _ _ => done

theorem forMMap {f f' : α → FlowM PUnit} {g : α → α} {xs : List α}
    (h : ∀ x ∈ xs, C.Match (f x) (f' (g x))) : C.Match (xs.forM f) ((xs.map g).forM f') := by
  induction xs with
  | nil => exact done
  | cons x xs ih =>
    exact C.bind (h x List.mem_cons_self) fun _ _ _ => ih fun y hy =>
      h y (List.mem_cons_of_mem _ hy)

theorem forM {f f' : α → FlowM PUnit} {xs : List α} (h : ∀ x ∈ xs, C.Match (f x) (f' x)) :
    C.Match (xs.forM f) (xs.forM f') := by
  simpa using forMMap (g := fun x => x) h

theorem mapMMap {f f' : α → FlowM β} {g : α → α} {k : β → β} {P : β → Prop}
    {xs : List α} (h : ∀ x ∈ xs, C.Agree (f x) (f' (g x)) fun b b' => b' = k b ∧ P b) :
    C.Agree (xs.mapM f) ((xs.map g).mapM f') fun bs bs' =>
    bs' = bs.map k ∧ ∀ b ∈ bs, P b := by
  induction xs with
  | nil =>
    rw [List.map_nil, List.mapM_nil, List.mapM_nil]
    exact C.pure ⟨rfl, by simp⟩
  | cons x xs ih =>
    rw [List.map_cons, List.mapM_cons, List.mapM_cons]
    refine bindMap (h x List.mem_cons_self) fun b hb => ?_
    refine bindMap (ih fun y hy => h y (List.mem_cons_of_mem _ hy)) fun bs hbs => ?_
    exact C.pure ⟨rfl, List.forall_mem_cons.2 ⟨hb, hbs⟩⟩

theorem mapM {f f' : α → FlowM β} {k : β → β} {P : β → Prop} {xs : List α}
    (h : ∀ x ∈ xs, C.Agree (f x) (f' x) fun b b' => b' = k b ∧ P b) :
    C.Agree (xs.mapM f) (xs.mapM f') fun bs bs' => bs' = bs.map k ∧ ∀ b ∈ bs, P b := by
  simpa using mapMMap (g := fun x => x) h

/-! ## Elementary steps -/

theorem unify {a b : Lifetime} (ha : C.Known a) (hb : C.Known b) :
    C.Match (Flow.unify a b) (Flow.unify (a.renumber C.ahead) (b.renumber C.ahead)) := by
  have h : C.Match (Flow.store a b >>= fun _ => Flow.store b a)
      (Flow.store (a.renumber C.ahead) (b.renumber C.ahead) >>= fun _ =>
        Flow.store (b.renumber C.ahead) (a.renumber C.ahead)) :=
    C.bind (C.store ha (.inl hb)) fun _ _ _ => C.store hb (.inl ha)
  exact h

theorem bundleOf {node : NodeId} : C.Agree (bundleOf node) (bundleOf node) fun a b =>
    b = Bundle.renumber C.ahead a ∧ C.Bundled a := by
  refine bindMap C.flowOf? fun flow? h => ?_
  cases flow? with
  | none => exact C.throw
  | some flow => exact C.pure ⟨rfl, (h flow rfl).1⟩

theorem escapingOf {node : NodeId} : C.Agree (escapingOf node) (escapingOf node) fun a b =>
    b = a ∧ ∀ path ∈ a, C.Ours path := by
  refine bindMap C.flowOf? fun flow? h => ?_
  cases flow? with
  | none => exact C.throw
  | some flow => exact C.pure ⟨rfl, (h flow rfl).2⟩

theorem wholeOf {node : NodeId} : C.Agree (wholeOf env node) (wholeOf env node) fun a b =>
    b = a.renumber C.ahead ∧ C.Admits a := by
  refine bindMap bundleOf fun bundle h => ?_
  rw [Bundle.whole?_renumber]
  cases hwhole : bundle.whole? with
  | none => exact bindLift fun _ _ => C.throw
  | some extent => exact C.pure ⟨rfl, h _ _ hwhole⟩

theorem escapingThrough {ty : Ty} {source : NodeId} :
    C.Agree (escapingThrough env ty source) (escapingThrough env ty source) fun a b =>
      b = a ∧ ∀ path ∈ a, C.Ours path := by
  refine bindLift fun tracked _ => ?_
  split
  · exact escapingOf
  · exact C.pure ⟨rfl, by simp⟩

theorem recordVoid : C.Match (recordVoid id) (recordVoid id) := by
  have h : C.Match (Flow.record id ∅ ∅) (Flow.record id (Bundle.renumber C.ahead ∅) ∅) :=
    C.record (by simp) (by simp)
  rwa [Bundle.renumber_empty] at h

end Coupling
end Regions.Flow
