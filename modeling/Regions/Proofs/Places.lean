import Regions.Proofs.Growth

/-!
# Places

A place is named without changing anything but the results of its own nodes. A variable, or a member
of one, has the extents that the frame gives for its path.

* `Recorded`: the last step of every rule;
* `Frame.Coherent`: every extent in a frame sits in the slot of its own path;
* `runs_place`: what is recorded for a place that a path names;
* `runs_addressOf`, `runs_dereference_place`: addresses, and what they lead to.
-/

namespace Regions

variable {path : Path} {bundle : Bundle} {pointer : Extent}

/-- Every extent in the frame sits in the slot of its own path. -/
def Frame.Coherent (frame : Frame) : Prop :=
  ∀ path extent, frame.lookup? path = some extent → extent.slot = .root path .localSlot

theorem Frame.nodup_visible (frame : Frame) (p : Path × Extent → Bool) :
    ((frame.visible.toList.filter p).map Prod.fst).Nodup := by
  refine List.Nodup.sublist (List.filter_sublist.map Prod.fst) ?_
  rw [Std.ExtTreeMap.map_fst_toList_eq_keys]
  exact Std.ExtTreeMap.nodup_keys

theorem Frame.get_eq_ok_iff {frame : Frame} {extent : Extent} :
    frame.get path = .ok extent ↔ frame.lookup? path = some extent := by
  unfold Frame.get
  cases frame.lookup? path <;> simp

namespace Flow

variable {env : Env} {recur : Recur} {s s' : State} {id target : NodeId}

/-- Nothing about variables and their data changes. -/
structure Still (s s' : State) : Prop where
  graph : s'.context.graph = s.context.graph
  rebound : s'.context.rebound = s.context.rebound
  heapWrites : s'.context.heapWrites = s.context.heapWrites
  frame : s'.frame = s.frame

theorem Still.refl (s : State) : Still s s := ⟨rfl, rfl, rfl, rfl⟩

theorem Still.trans {s₁ : State} (h : Still s s₁) (h' : Still s₁ s') : Still s s' where
  graph := h'.graph.trans h.graph
  rebound := h'.rebound.trans h.rebound
  heapWrites := h'.heapWrites.trans h.heapWrites
  frame := h'.frame.trans h.frame

/-- The last step of a rule: the node gets its bundle, and the rest stays. -/
structure Recorded (id : NodeId) (bundle : Bundle) (s s' : State) : Prop extends Still s s' where
  fresh : s.flowAt id = none
  flowAt : ∃ escaping, ∀ other,
    s'.flowAt other = if other = id then some ⟨bundle, escaping⟩ else s.flowAt other

theorem recorded_of_runs {escaping : PathSet} (h : Runs (record id bundle escaping) s () s') :
    Recorded id bundle s s' := by
  obtain ⟨hfresh, hcontext, hframe, hflow⟩ := runs_record h
  exact {
    graph := by rw [hcontext]
    rebound := by rw [hcontext]
    heapWrites := by rw [hcontext]
    frame := hframe
    fresh := hfresh
    flowAt := ⟨escaping, hflow⟩ }

/-- What is recorded after a change to other knowledge counts as recorded before it. -/
theorem Recorded.of_withContext {context : Context}
    (h : Recorded id bundle (s.withContext context) s') (hgraph : context.graph = s.context.graph)
    (hrebound : context.rebound = s.context.rebound)
    (hheapWrites : context.heapWrites = s.context.heapWrites) : Recorded id bundle s s' where
  graph := h.graph.trans hgraph
  rebound := h.rebound.trans hrebound
  heapWrites := h.heapWrites.trans hheapWrites
  frame := h.frame
  fresh := h.fresh
  flowAt := h.flowAt

theorem Recorded.self (h : Recorded id bundle s s') :
    ∃ escaping, s'.flowAt id = some ⟨bundle, escaping⟩ := by
  obtain ⟨escaping, hflow⟩ := h.flowAt
  exact ⟨escaping, by rw [hflow id, if_pos rfl]⟩

/-- What a rule does after the operands of its node: the node gets its bundle, and the frame
stays. -/
structure Finishes (id : NodeId) (bundle : Bundle) (s s' : State) : Prop where
  grows : Grows s s'
  frame : s'.frame = s.frame
  flowAt : ∃ escaping, s'.flowAt id = some ⟨bundle, escaping⟩

theorem finishes_of_runs {s₁ : State} {escaping : PathSet} (hgrows : Grows s s₁)
    (hframe : s₁.frame = s.frame) (h : Runs (record id bundle escaping) s₁ () s') :
    Finishes id bundle s s' where
  grows := hgrows.trans (Grows.of_record h)
  frame := (recorded_of_runs h).frame.trans hframe
  flowAt := (recorded_of_runs h).self

/-! ## Variables and members as places -/

theorem runs_nameVariable (h : Runs (nameVariable env id path) s () s') :
    ∃ bundle, Recorded id bundle s s' ∧
      ∀ m extent, bundle[m]? = some extent → s.frame.lookup? (path ++ m) = some extent := by
  simp only [nameVariable, runs_bind_iff, runs_lift_iff, runs_get_iff] at h
  obtain ⟨ty, _, ⟨hty, rfl⟩, members, _, ⟨hmembers, rfl⟩, _, _, ⟨rfl, rfl⟩, entries,
    s₁, hentries, h⟩ := h
  obtain ⟨rfl, hall⟩ := runs_mapM_of_fixed (by
    intro member _ s entry s' hrun
    simp only [runs_bind_iff, runs_lift_iff, runs_pure_iff] at hrun
    obtain ⟨_, _, ⟨_, rfl⟩, _, rfl⟩ := hrun
    rfl) hentries
  refine ⟨_, recorded_of_runs h, fun m extent hm => ?_⟩
  obtain ⟨member, _, hrun⟩ := forall₂_mem_right hall (mem_of_getElem?_ofList hm)
  simp only [runs_bind_iff, runs_lift_iff, runs_pure_iff, Prod.mk.injEq] at hrun
  obtain ⟨_, _, ⟨hget, rfl⟩, ⟨rfl, rfl⟩, _⟩ := hrun
  exact Frame.get_eq_ok_iff.1 hget

theorem runs_memberBundle {member : String}
    (h : Runs (memberBundle env id target member) s bundle s') :
    s' = s ∧ ∃ flow, s.flowAt target = some flow ∧
      bundle = flow.bundle.scopedTo (.single member) := by
  simp only [memberBundle, runs_bind_iff, runs_bundleOf_iff, runs_ite_iff, runs_throw_iff,
    runs_lift_iff, runs_pure_iff, false_and, exists_false, and_false, false_or, or_false] at h
  obtain ⟨_, _, ⟨flow, hflow, rfl, rfl⟩, _, ty, _, ⟨_, rfl⟩, members, _, ⟨_, rfl⟩, _,
    rfl, rfl⟩ := h
  exact ⟨rfl, flow, hflow, rfl⟩

theorem runs_nameMember {member : String}
    (h : Runs (nameMember env recur id target member) s () s') :
    ∃ s₁ flow, Runs (recur .place target) s () s₁ ∧ s₁.flowAt target = some flow ∧
      Recorded id (flow.bundle.scopedTo (.single member)) s₁ s' := by
  simp only [nameMember, runs_bind_iff, runs_escapingOf_iff] at h
  obtain ⟨_, s₁, htarget, _, _, ⟨_, _, rfl, rfl⟩, bundle, _, hbundle, h⟩ := h
  obtain ⟨rfl, flow, hflow, rfl⟩ := runs_memberBundle hbundle
  exact ⟨_, flow, htarget, hflow, recorded_of_runs h⟩

/-- A place that a path names, none of whose nodes has a result, gets the extents that the frame
gives for the path. -/
theorem runs_place {n m depth : Nat} {place : NodeId} {nodes : List NodeId}
    (hpath : placePath? env.owner n place = .ok (some path))
    (hwalk : env.owner.walkFrom m place = .ok nodes) (hfresh : ∀ id ∈ nodes, s.flowAt id = none)
    (h : Runs (analyzeNode env depth .place place) s () s') :
    ∃ bundle s₁, Still s s₁ ∧ Recorded place bundle s₁ s' ∧
      ∀ q extent, bundle[q]? = some extent → s.frame.lookup? (path ++ q) = some extent := by
  induction n generalizing m depth place path nodes s' with
  | zero => cases hpath
  | succ n ih =>
    cases m with
    | zero => cases hwalk
    | succ m =>
      obtain ⟨node, hnode, hpath⟩ := except_bind_eq_ok hpath
      obtain ⟨node', hnode', hwalk⟩ := except_bind_eq_ok hwalk
      obtain rfl : node = node' := Except.ok.inj (hnode.symm.trans hnode')
      obtain ⟨below, hbelow, hnodes⟩ := except_bind_eq_ok hwalk
      cases hnodes
      obtain ⟨depth, node', rfl, hnode', hrule⟩ :=
        runs_analyzeNode h (hfresh place List.mem_cons_self)
      obtain rfl : node = node' := Except.ok.inj (hnode.symm.trans hnode')
      split at hpath
      · rename_i path' hexpr
        cases hpath
        rw [hexpr] at hrule
        obtain ⟨bundle, hrecorded, hbundle⟩ := runs_nameVariable hrule
        exact ⟨bundle, s, Still.refl s, hrecorded, hbundle⟩
      · rename_i target member hexpr
        rw [hexpr] at hrule hbelow
        obtain ⟨path?, htarget, hpath⟩ := except_bind_eq_ok hpath
        obtain ⟨path', rfl, rfl⟩ := Option.map_eq_some_iff.1 (Except.ok.inj hpath)
        obtain ⟨part, rest, hpart, -, rfl⟩ := mapM_ok_cons_iff.1 hbelow
        obtain ⟨s₁, flow, hrun, hflow, hrecorded⟩ := runs_nameMember hrule
        have hfresh' : ∀ id ∈ part, s.flowAt id = none := fun id hid =>
          hfresh id (List.mem_cons_of_mem _ (List.mem_append_left _ hid))
        obtain ⟨bundle, s₀, hstill, htargetRecorded, hbundle⟩ := ih htarget hpart hfresh' hrun
        obtain ⟨escaping, hself⟩ := htargetRecorded.self
        obtain rfl : flow = ⟨bundle, escaping⟩ := Option.some.inj (hflow.symm.trans hself)
        refine ⟨_, s₁, hstill.trans htargetRecorded.toStill, hrecorded, fun q extent hq => ?_⟩
        rw [Bundle.getElem?_scopedTo] at hq
        rw [Path.child_append]
        exact hbundle _ extent hq
      · cases hpath

/-! ## Addresses -/

theorem runs_addressOf (h : Runs (addressOf env recur id target) s () s') :
    ∃ s₁ flow extent, Runs (recur .place target) s () s₁ ∧
    s₁.flowAt target = some flow ∧
      flow.bundle.whole? = some extent ∧ extent.slot.isNone = false ∧
      Recorded id (.ofList [(.whole, .ofValue extent.slot)] _) s₁ s' := by
  simp only [addressOf, runs_bind_iff, runs_wholeOf_iff, runs_ite_iff, runs_throw_iff,
    runs_expose_iff, runs_escapingOf_iff, false_and, exists_false, and_false, false_or] at h
  obtain ⟨_, s₁, htarget, extent, _, ⟨flow, hflow, hwhole, rfl⟩, hsome, h⟩ := h
  refine ⟨_, flow, extent, htarget, hflow, hwhole, by simpa using hsome, ?_⟩
  rcases h with ⟨_, _, s₂, rfl, _, _, ⟨_, _, rfl, rfl⟩, h⟩
    | ⟨_, _, _, ⟨_, _, rfl, rfl⟩, h⟩
  · exact (recorded_of_runs h).of_withContext rfl rfl rfl
  · exact recorded_of_runs h

/-! ## Storage behind a reference -/

/-- What is written through a reference to one field of the storage behind it. -/
def Env.writtenAt (env : Env) (kind : String) (id : NodeId) (field : Field) : Lifetime :=
  { path := env.tempPath kind id ++ field.path, role := .alias, origin := .temporary }

/-- The extent of a field of the storage behind a reference. -/
def Env.behind (env : Env) (kind : String) (id : NodeId) (pointer : Extent) (field : Field) :
    Extent :=
  ⟨if field.tracked then env.writtenAt kind id field else .none, pointer.value⟩

/-- Naming storage behind a reference stores what is going to be written in all that the reference
rests on at this point. -/
def WriteStores (env : Env) (kind : String) (id : NodeId) (graph : Outlives) (pointer : Extent)
    (fields : List Field) (container stored : Lifetime) : Prop :=
  ∃ field ∈ fields, field.tracked = true ∧ stored = env.writtenAt kind id field ∧
    (container ∈ graph.supportOf pointer.value ∨ container = pointer.value)

theorem runs_resolve? {ty : Ty} {access : Access} {bundle? : Option Bundle}
    (h : Runs (resolve? env pointer ty access) s bundle? s') : s' = s := by
  obtain ⟨_, _, hget, h⟩ := runs_bind_iff.1 h
  obtain ⟨rfl, rfl⟩ := runs_get_iff.1 hget
  split at h
  · exact (runs_pure_iff.1 h).2.symm
  · simp only [runs_bind_iff, runs_lift_iff, runs_pure_iff] at h
    obtain ⟨_, _, ⟨_, rfl⟩, _, rfl⟩ := h
    rfl

theorem resolve?_eq_none {ty : Ty} {access : Access} {bundle? : Option Bundle}
    (hslot : pointer.slot.isSlot = false) (h : Runs (resolve? env pointer ty access) s bundle? s') :
    bundle? = none := by
  obtain ⟨_, _, hget, h⟩ := runs_bind_iff.1 h
  obtain ⟨rfl, rfl⟩ := runs_get_iff.1 hget
  have hnone : pointee? env s pointer = none := by
    simp only [pointee?, hslot, Bool.and_false, Bool.false_and, guard, Bool.false_eq_true, if_false]
    rfl
  rw [hnone] at h
  exact (runs_pure_iff.1 h).1.symm

/-- One field of the storage behind a reference. -/
theorem storesOnly_writeField {kind : String} {support : LifetimeSet} {field : Field}
    {entry : Path × Extent} (h : Runs (do
      if field.tracked then
        let written : Lifetime :=
          { path := env.tempPath kind id ++ field.path, role := .alias, origin := .temporary }
        support.toList.forM fun holder => store written holder
        store written pointer.value field.ty
        return (field.path, (⟨written, pointer.value⟩ : Extent))
      else
        return (field.path, (⟨.none, pointer.value⟩ : Extent))) s entry s') :
    entry = (field.path, env.behind kind id pointer field) ∧
      StoresOnly (fun c x => field.tracked = true ∧ x = env.writtenAt kind id field ∧
        (c ∈ support ∨ c = pointer.value)) s s' := by
  rcases runs_ite_iff.1 h with ⟨htracked, h⟩ | ⟨htracked, h⟩
  · obtain ⟨_, s₁, hholders, h⟩ := runs_bind_iff.1 h
    obtain ⟨_, s₂, hpointer, h⟩ := runs_bind_iff.1 h
    obtain ⟨rfl, rfl⟩ := runs_pure_iff.1 h
    refine ⟨by simp [Env.behind, Env.writtenAt, htracked], ?_⟩
    have hfirst := storesOnly_forM (fun holder _ s s' => storesOnly_store) hholders
    refine (hfirst.trans (storesOnly_store hpointer)).congr fun c x => ?_
    simp only [Std.ExtTreeSet.mem_toList, Env.writtenAt, htracked, true_and]
    constructor
    · rintro (⟨holder, hholder, rfl, rfl⟩ | ⟨rfl, rfl⟩)
      · exact ⟨rfl, .inl hholder⟩
      · exact ⟨rfl, .inr rfl⟩
    · rintro ⟨rfl, hc | rfl⟩
      · exact .inl ⟨c, hc, rfl, rfl⟩
      · exact .inr ⟨rfl, rfl⟩
  · obtain ⟨rfl, rfl⟩ := runs_pure_iff.1 h
    refine ⟨by simp [Env.behind, htracked], StoresOnly.refl fun c x hadd => htracked hadd.1⟩

theorem runs_writeThrough {kind : String}
    (h : Runs (writeThrough env kind id target pointer) s () s') :
    ∃ ty, env.typeOf id = .ok ty ∧
    ((∃ bundle, Runs (resolve? env pointer ty .write) s (some bundle) s ∧
          Recorded id bundle s s') ∨
        Runs (resolve? env pointer ty .write) s none s ∧
        ∃ fields s₁, env.fields ty = .ok fields ∧
            StoresOnly (WriteStores env kind id s.context.graph pointer fields) s s₁ ∧
            Recorded id (.ofList (fields.map fun field =>
              (field.path, env.behind kind id pointer field)) _) s₁ s') := by
  simp only [writeThrough, runs_bind_iff, runs_lift_iff, runs_escapingOf_iff] at h
  obtain ⟨ty, _, ⟨hty, rfl⟩, _, _, ⟨_, _, rfl, rfl⟩, bundle?, s₀, hresolve, h⟩ := h
  have hsame := runs_resolve? hresolve
  subst hsame
  refine ⟨ty, hty, ?_⟩
  cases bundle? with
  | some bundle => exact .inl ⟨bundle, hresolve, recorded_of_runs h⟩
  | none =>
    refine .inr ⟨hresolve, ?_⟩
    simp only [runs_bind_iff, runs_lift_iff, runs_get_iff] at h
    obtain ⟨_, _, ⟨rfl, rfl⟩, fields, _, ⟨hfields, rfl⟩, entries, s₁, hentries, h⟩ :=
      h
    obtain ⟨hall, hstores⟩ :=
      storesOnly_mapM (fun field _ t entry t' => storesOnly_writeField) hentries
    obtain rfl := eq_map_of_forall₂ hall
    exact ⟨fields, s₁, hfields, hstores, recorded_of_runs h⟩

theorem runs_dereference {position : Position}
    (h : Runs (dereference env recur position id target) s () s') :
    ∃ s₁ flow pointer, Runs (recur .value target) s () s₁ ∧
    s₁.flowAt target = some flow ∧ flow.bundle.whole? = some pointer ∧
      Runs (accessThrough env "deref" position id target pointer) s₁ () s' := by
  simp only [dereference, runs_bind_iff, runs_wholeOf_iff] at h
  obtain ⟨_, s₁, htarget, pointer, _, ⟨flow, hflow, hwhole, rfl⟩, h⟩ := h
  exact ⟨_, flow, pointer, htarget, hflow, hwhole, h⟩

theorem runs_index {position : Position} {subscript : NodeId}
    (h : Runs (index env recur position id target subscript) s () s') :
    ∃ s₀ s₁ flow pointer, Runs (recur .value target) s () s₀ ∧
      Runs (recur .value subscript) s₀ () s₁ ∧ s₁.flowAt target = some flow ∧
      flow.bundle.whole? = some pointer ∧
      Runs (accessThrough env "index" position id target (.ofValue pointer.value)) s₁ () s' := by
  simp only [index, runs_bind_iff, runs_wholeOf_iff] at h
  obtain ⟨_, s₀, htarget, _, s₁, hsubscript, pointer, _,
    ⟨flow, hflow, hwhole, rfl⟩, h⟩ := h
  exact ⟨s₀, _, flow, pointer, htarget, hsubscript, hflow, hwhole, h⟩

end Flow
end Regions
