import Mathlib.Data.List.Infix
import Mathlib.Data.List.Nodup
import Regions.Proofs.Places

/-!
# Members, struct literals and heap memory

The bundles of the values that are made from other values.

* `runs_operator`, `runs_readMember`: plain data, and members;
* `runs_structLiteral`: a struct literal has the data of its fields below their names;
* `Initializes`: data is written to new heap memory, each field of it logged and checked;
* `runs_allocate`: the parts of an allocation.
-/

namespace Regions.Flow

open Std

variable {env : Env} {recur : Recur} {s s' : State} {id target : NodeId} {whole : Lifetime}
  {fields : List (String × NodeId)} {extent : Extent} {region : Lifetime} {initial : Bundle}

theorem runs_operator {operands : List NodeId} (h : Runs (operator env recur id operands) s () s') :
    ∃ s₁ bundle, Runs (operands.forM (recur .value)) s () s₁ ∧
    Finishes id bundle s₁ s' := by
  simp only [operator, runs_bind_iff, runs_lift_iff] at h
  obtain ⟨_, s₁, hoperands, ty, _, ⟨_, rfl⟩, bundle, _, ⟨_, rfl⟩, h⟩ := h
  exact ⟨_, bundle, hoperands, finishes_of_runs (Grows.refl _) rfl h⟩

theorem runs_readMember {member : String}
    (h : Runs (readMember env recur id target member) s () s') :
    ∃ s₁ flow, Runs (recur .value target) s () s₁ ∧ s₁.flowAt target = some flow ∧
      Finishes id (flow.bundle.scopedTo (.single member)) s₁ s' := by
  simp only [readMember, runs_bind_iff, runs_lift_iff] at h
  obtain ⟨_, s₁, htarget, ty, _, ⟨_, rfl⟩, escaping, s₂, hescaping, bundle, _,
    hbundle, h⟩ := h
  have hsame : s₂ = s₁ := by
    simp only [escapingThrough, runs_bind_iff, runs_lift_iff, runs_ite_iff, runs_escapingOf_iff,
      runs_pure_iff] at hescaping
    obtain ⟨_, _, ⟨_, rfl⟩, ⟨_, _, _, _, rfl⟩ | ⟨_, _, rfl⟩⟩ := hescaping <;> rfl
  subst hsame
  obtain ⟨rfl, flow, hflow, rfl⟩ := runs_memberBundle hbundle
  exact ⟨_, flow, htarget, hflow, finishes_of_runs (Grows.refl _) rfl h⟩

/-! ## Struct literals -/

/-- The entries of a struct literal's bundle that come from one of its fields. -/
def fieldEntries (name : String) (bundle : Bundle) : List (Path × Extent) :=
  bundle.toList.map fun entry => (.single name ++ entry.1, .ofValue entry.2.value)

theorem runs_insertField {name : String} {value : NodeId} {entries : List (Path × Extent)}
    (h : Runs (insertField env whole name value) s entries s') :
    (∃ flow, s.flowAt value = some flow ∧ entries = fieldEntries name flow.bundle) ∧
      ∃ graph, s' = s.withGraph graph ∧ s.context.graph.Below graph := by
  simp only [insertField, runs_bind_iff, runs_lift_iff, runs_bundleOf_iff, runs_pure_iff] at h
  obtain ⟨ty, _, ⟨_, rfl⟩, _, _, ⟨flow, hflow, rfl, rfl⟩, _, s₁, hstores, rfl, rfl⟩ :=
    h
  obtain ⟨graph, rfl, hadds⟩ := storesOnly_forM (fun data _ s s' => storesOnly_store) hstores
  exact ⟨⟨flow, hflow, rfl⟩, graph, rfl, hadds.below⟩

/-- Each field of a literal has the entries of what is put there. -/
abbrev FieldParts (s : State) : List (String × NodeId) → List (List (Path × Extent)) → Prop :=
  List.Forall₂ fun field part => ∃ flow, s.flowAt field.2 = some flow ∧
    part = fieldEntries field.1 flow.bundle

theorem runs_insertFields {entries : List (List (Path × Extent))}
    (h : Runs (fields.mapM fun field => insertField env whole field.1 field.2) s entries s') :
    FieldParts s fields entries ∧ ∃ graph, s' = s.withGraph graph ∧
    s.context.graph.Below graph := by
  induction fields generalizing s entries with
  | nil =>
    obtain ⟨rfl, rfl⟩ := runs_mapM_nil_iff.1 h
    exact ⟨.nil, s.context.graph, rfl, Outlives.Below.refl _⟩
  | cons field fields ih =>
    obtain ⟨part, s₁, rest, hfield, hfields, rfl⟩ := runs_mapM_cons_iff.1 h
    obtain ⟨hpart, graph, rfl, hbelow⟩ := runs_insertField hfield
    obtain ⟨hrest, graph', rfl, hbelow'⟩ := ih hfields
    exact ⟨.cons hpart hrest, graph', rfl, hbelow.trans hbelow'⟩

/-- Defaults do not replace what is given. -/
theorem getElem?_defaults {members : List Field} {given : Bundle} {path : Path}
    (h : given[path]? = some extent) : (members.foldl (fun bundle field =>
      bundle.insertIfNew field.path (defaultExtent whole field)) given)[path]? = some extent := by
  induction members generalizing given with
  | nil => exact h
  | cons field members ih =>
    refine ih ?_
    rw [ExtTreeMap.getElem?_insertIfNew, if_neg, h]
    rintro ⟨heq, hnew⟩
    rw [Std.compare_eq_iff_eq] at heq
    subst heq
    exact hnew (ExtTreeMap.isSome_getElem?_iff_mem.1 (by simp [h]))

/-- The fields of a literal, of which each name is given once, stand below their names. -/
theorem getElem?_fieldEntries {entries : List (List (Path × Extent))}
    (hnames : (fields.map Prod.fst).Nodup) (hall : FieldParts s fields entries)
    {field : String × NodeId} (hfield : field ∈ fields) {flow : NodeFlow}
    (hflow : s.flowAt field.2 = some flow) {m : Path} (hextent : flow.bundle[m]? = some extent) :
    (ExtTreeMap.ofList entries.flatten compare)[Path.single field.1 ++ m]? =
      some (Extent.ofValue extent.value) := by
  apply getElem?_ofList
  · obtain ⟨part, hpart, flow', hflow', rfl⟩ := forall₂_mem_left hall hfield
    cases hflow.symm.trans hflow'
    refine List.mem_flatten.2 ⟨_, hpart, List.mem_map.2 ⟨(m, extent), ?_, rfl⟩⟩
    exact ExtTreeMap.mem_toList_iff_getElem?_eq_some.2 hextent
  · intro other hother
    obtain ⟨part, hpart, hin⟩ := List.mem_flatten.1 hother
    obtain ⟨field', hfield', flow', hflow', rfl⟩ := forall₂_mem_right hall hpart
    obtain ⟨⟨m', extent'⟩, hmem, heq⟩ := List.mem_map.1 hin
    obtain ⟨hpath, rfl⟩ := Prod.mk.inj heq
    -- The name decides the field, and the rest of the path the entry in its bundle.
    obtain ⟨hname, hrest⟩ := List.cons.inj (congrArg Path.segments hpath)
    obtain rfl := List.inj_on_of_nodup_map hnames hfield' hfield hname
    cases hflow.symm.trans hflow'
    have hm : m' = m := congrArg Path.mk hrest
    subst hm
    rw [ExtTreeMap.mem_toList_iff_getElem?_eq_some, hextent] at hmem
    cases hmem
    rfl

theorem runs_structLiteral (h : Runs (structLiteral env recur id fields) s () s') :
    ∃ s₁ ty bundle, Runs ((fields.map Prod.snd).forM (recur .value)) s () s₁ ∧
      env.typeOf id = .ok ty ∧ Finishes id bundle s₁ s' ∧
      ∃ tracked, env.tracked ty = .ok tracked ∧
      (tracked = true → (fields.map Prod.fst).Nodup → ∀ field ∈ fields, ∀ flow,
        s₁.flowAt field.2 = some flow → ∀ (m : Path) (extent : Extent),
        flow.bundle[m]? = some extent →
          bundle[Path.single field.1 ++ m]? = some (Extent.ofValue extent.value)) := by
  simp only [structLiteral, runs_bind_iff, runs_lift_iff, runs_ite_iff] at h
  obtain ⟨_, s₁, hfields, ty, _, ⟨hty, rfl⟩, tracked, _, ⟨htracked, rfl⟩, h⟩ := h
  have hfields' : Runs ((fields.map Prod.snd).forM (recur .value)) s () s₁ := by
    change Runs (forM (fields.map Prod.snd) (recur .value)) s () s₁
    rw [List.forM_map]
    exact hfields
  rcases h
    with ⟨-, entries, s₂, hentries, escaping, s₃, hescaping, members, _, ⟨_, rfl⟩, h⟩ |
    ⟨huntracked, bundle, _, ⟨_, rfl⟩, h⟩
  · obtain ⟨hall, graph, rfl, hbelow⟩ := runs_insertFields hentries
    obtain ⟨rfl, -⟩ := runs_mapM_of_fixed (fun field _ s escaping s' hrun => by
      obtain ⟨_, _, _, rfl⟩ := runs_escapingOf_iff.1 hrun
      rfl) hescaping
    have hgrows : Grows s₁ (s₁.withGraph graph) := { Grows.refl s₁ with graph := hbelow }
    refine ⟨s₁, ty, _, hfields', hty, finishes_of_runs hgrows rfl h, tracked, htracked, ?_⟩
    intro _ hnames field hfield flow hflow m extent hextent
    exact getElem?_defaults (getElem?_fieldEntries hnames hall hfield hflow hextent)
  · exact ⟨_, ty, bundle, hfields', hty, finishes_of_runs (Grows.refl _) rfl h,
      tracked, htracked, fun htracked' => absurd htracked' huntracked⟩

/-! ## Heap memory -/

/-- The fields of data were written to new heap memory: each one that rests on something was logged,
and checked if heap memory is. -/
structure Initializes (env : Env) (region : Lifetime) (initial : Bundle) (fields : List Field)
    (s s' : State) : Prop where
  grows : Grows s s'
  frame : s'.frame = s.frame
  logged : ∀ field ∈ fields, ∀ extent, initial[field.path]? = some extent →
    extent.value.isNone = false →
    (∃ write ∈ s'.context.heapWrites.drop s.context.heapWrites.length,
      write.container = region ∧ write.stored = extent.value) ∧
    (env.options.checkHeapStores = true → region.isHeap = true →
      ∀ root, root ∉ s.context.graph.rootsOf extent.value)
  holds : ∀ c x, s'.context.graph.Holds c x ↔ s.context.graph.Holds c x ∨
    c = region ∧ Outlives.Relevant x region ∧
      ∃ field ∈ fields, ∃ extent, initial[field.path]? = some extent ∧ x = extent.value

/-- The checks of the fields still hold when all of them were written. -/
theorem Initializes.not_mem_rootsOf {fields : List Field}
    (h : Initializes env region initial fields s s') (hcheck : env.options.checkHeapStores = true)
    (hheap : region.isHeap = true) {field : Field} (hfield : field ∈ fields)
    (hextent : initial[field.path]? = some extent) (hsome : extent.value.isNone = false)
    (root : Lifetime) : root ∉ s'.context.graph.rootsOf extent.value := by
  intro hroot
  obtain ⟨hreach, hkind⟩ := Outlives.mem_rootsOf_iff.1 hroot
  -- What a field gets to now, some field got to before.
  have hbefore : ∃ field ∈ fields, ∃ extent, initial[field.path]? = some extent ∧
      extent.value.isNone = false ∧ s.context.graph.Reaches extent.value root := by
    clear hkind hroot
    induction hreach with
    | refl => exact ⟨field, hfield, extent, hextent, hsome, .refl _ _⟩
    | tail _ hx ih =>
      rcases (h.holds _ _).1 hx with hold | ⟨-, hrelevant, other, hother, found, hfound, rfl⟩
      · obtain ⟨other, hother, found, hfound, hsome, hreach⟩ := ih
        exact ⟨other, hother, found, hfound, hsome, hreach.trans (.of_holds hold)⟩
      · exact ⟨other, hother, found, hfound, hrelevant.2.1, .refl _ _⟩
  obtain ⟨other, hother, found, hfound, hsome, hreach⟩ := hbefore
  exact (h.logged other hother found hfound hsome).2 hcheck hheap root
    (Outlives.mem_rootsOf_iff.2 ⟨hreach, hkind⟩)

theorem runs_verify {write : HeapWrite} (h : Runs (verify env write) s () s') : s' = s ∧
    (env.options.checkHeapStores = true → isHeapBacked s.context.graph write.container = true →
      ∀ root, root ∉ s.context.graph.rootsOf write.stored) := by
  simp only [verify, runs_bind_iff, runs_get_iff] at h
  obtain ⟨_, _, ⟨rfl, rfl⟩, h⟩ := h
  cases hviolation : write.violation? env.options s.context.graph with
  | some violation => simp [hviolation] at h
  | none =>
    simp only [hviolation, runs_pure_iff] at h
    refine ⟨h.2.symm, fun hcheck hheap root hroot => ?_⟩
    have hempty : (s.context.graph.rootsOf write.stored).isEmpty = true := by
      simpa [HeapWrite.violation?, hcheck, hheap] using hviolation
    rw [ExtTreeSet.isEmpty_iff.1 hempty] at hroot
    exact ExtTreeSet.not_mem_empty hroot

theorem runs_verifyAll {writes : List HeapWrite} (h : Runs (writes.forM (verify env)) s () s') :
    s' = s ∧ (env.options.checkHeapStores = true → ∀ write ∈ writes,
      write.container.isHeap = true →
      ∀ root, root ∉ s.context.graph.rootsOf write.stored) := by
  induction h using runs_forM_rec with
  | nil => exact ⟨rfl, by simp⟩
  | cons write writes hfirst _ ih =>
    obtain ⟨rfl, hroots⟩ := runs_verify hfirst
    obtain ⟨rfl, hall⟩ := ih
    refine ⟨rfl, fun hcheck other hother => ?_⟩
    rcases List.mem_cons.1 hother with rfl | hother
    · exact fun hheap => hroots hcheck (by simp [isHeapBacked, hheap])
    · exact hall hcheck other hother

theorem runs_initializeMember {span : Span} {field : Field}
    (h : Runs (initializeMember env region initial span field) s () s') :
    Initializes env region initial [field] s s' := by
  cases hextent : initial[field.path]? with
  | none =>
    simp only [initializeMember, hextent, runs_pure_iff] at h
    obtain ⟨-, rfl⟩ := h
    refine ⟨Grows.refl s, rfl, fun other hother extent hget => ?_, by simp [hextent]⟩
    obtain rfl := List.mem_singleton.1 hother
    simp [hextent] at hget
  | some extent =>
    have hgrows := grows_of_match env ⟨0⟩
      (Coupling.initializeMember trivial fun _ _ _ => ⟨trivial, trivial⟩) s () s' h
    simp only [initializeMember, hextent, runs_ite_iff, runs_pure_iff, check, runs_bind_iff,
      runs_modifyContext_iff, runs_store_iff] at h
    rcases h with ⟨hnone, -, rfl⟩ | ⟨hsome, _, s₁, ⟨_, _, rfl, hverify⟩, rfl⟩
    · refine ⟨hgrows, rfl, fun other hother extent' hget hsome => ?_, fun c x => ?_⟩
      swap
      · simp only [List.mem_singleton, exists_eq_left, hextent, Option.some.injEq,
          exists_eq_left', Outlives.Relevant]
        refine ⟨.inl, fun h => h.resolve_right ?_⟩
        rintro ⟨-, ⟨-, hsome, -⟩, rfl⟩
        simp [hnone] at hsome
      obtain rfl := List.mem_singleton.1 hother
      cases hextent.symm.trans hget
      simp [hnone] at hsome
    · obtain ⟨rfl, hroots⟩ := runs_verify hverify
      refine ⟨hgrows, rfl, fun other hother extent' hget _ => ?_, fun c x => ?_⟩
      swap
      · simp only [List.mem_singleton, exists_eq_left, hextent, Option.some.injEq, exists_eq_left']
        refine Outlives.holds_store_iff.trans ⟨?_, ?_⟩
        · rintro (⟨rfl, rfl, hrelevant⟩ | hold)
          · exact .inr ⟨rfl, hrelevant, rfl⟩
          · exact .inl hold
        · rintro (hold | ⟨rfl, hrelevant, rfl⟩)
          · exact .inr hold
          · exact .inl ⟨rfl, rfl, hrelevant⟩
      obtain rfl := List.mem_singleton.1 hother
      cases hextent.symm.trans hget
      refine ⟨⟨⟨region, extent.value, span⟩, ?_, rfl, rfl⟩,
        fun hcheck hheap => hroots hcheck (by simp [isHeapBacked, hheap])⟩
      simp [State.withGraph, State.withContext]

theorem runs_initializeMembers {span : Span} {fields : List Field}
    (h : Runs (fields.forM (initializeMember env region initial span)) s () s') :
    Initializes env region initial fields s s' := by
  induction h using runs_forM_rec with
  | nil s => exact ⟨Grows.refl s, rfl, by simp, by simp⟩
  | cons field fields hfield _ hrest =>
    have hfirst := runs_initializeMember hfield
    refine ⟨hfirst.grows.trans hrest.grows, hrest.frame.trans hfirst.frame, ?_, fun c x => ?_⟩
    swap
    · rw [hrest.holds, hfirst.holds]
      simp only [List.mem_cons, exists_eq_or_imp]
      grind
    intro other hother extent hget hsome
    rcases List.mem_cons.1 hother with rfl | hother
    · obtain ⟨⟨write, hwrite, hparts⟩, hroots⟩ :=
        hfirst.logged other (List.mem_singleton_self _) extent hget hsome
      exact ⟨⟨write, (hrest.grows.heapWrites.drop _).subset hwrite, hparts⟩, hroots⟩
    · obtain ⟨⟨write, hwrite, hparts⟩, hroots⟩ :=
        hrest.logged other hother extent hget hsome
      refine ⟨⟨write, ?_, hparts⟩, fun hcheck hheap root hroot =>
        hroots hcheck hheap root ?_⟩
      · exact List.drop_subset_drop_left _ hfirst.grows.heapWrites.length_le hwrite
      · rw [Outlives.mem_rootsOf_iff] at hroot ⊢
        exact ⟨hroot.1.mono hfirst.grows.graph, hroot.2⟩

/-- The region of new heap memory. -/
def Env.allocation (env : Env) (id : NodeId) : Lifetime := .root (env.tempPath "new" id) .heap

theorem runs_allocate {initializer : Option NodeId}
    (h : Runs (allocate env recur id initializer) s () s') :
    ∃ s₀ s₁ bundle, Grows s s₀ ∧ s₀.frame = s.frame ∧
    (∀ node, s₀.flowAt node = s.flowAt node) ∧
      Runs (initializer.toList.forM (recur .value)) s₀ () s₁ ∧ Finishes id bundle s₁ s' ∧
      ∀ value ∈ initializer, ∃ flow node fields s₂, s₁.flowAt value = some flow ∧
        env.node value = .ok node ∧ env.fields node.ty = .ok fields ∧
        Initializes env (env.allocation id) flow.bundle fields s₁ s₂ ∧ Grows s₂ s' := by
  simp only [allocate, runs_bind_iff, runs_newRoot_iff] at h
  obtain ⟨_, s₀, ⟨rfl, rfl⟩, h⟩ := h
  have hroot : Grows s (s.withContext { s.context with
      roots := s.context.roots.insert (.root (env.tempPath "new" id) .heap) }) :=
    { Grows.refl s with roots := fun root hmem => ExtTreeSet.mem_insert.2 (.inr hmem) }
  cases initializer with
  | none =>
    refine ⟨_, _, _, hroot, rfl, fun _ => rfl, runs_forM_nil_iff.2 rfl,
      finishes_of_runs (Grows.refl _) rfl h, by simp⟩
  | some value =>
    simp only [runs_bind_iff, runs_lift_iff, runs_bundleOf_iff] at h
    obtain ⟨_, s₁, hvalue, node, _, ⟨hnode, rfl⟩, _, _,
      ⟨flow, hflow, rfl, rfl⟩, fields, _, ⟨hfields, rfl⟩, _, s₂, hloop, h⟩ := h
    have hinit := runs_initializeMembers hloop
    refine ⟨_, _, _, hroot, rfl, fun _ => rfl, ?_,
      finishes_of_runs hinit.grows hinit.frame h, ?_⟩
    · exact runs_forM_singleton_iff.2 hvalue
    · intro other hother
      cases hother
      exact ⟨flow, node, fields, s₂, hflow, hnode, hfields, hinit, Grows.of_record h⟩

end Regions.Flow
