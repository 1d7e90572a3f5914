import Regions.Proofs.Places

/-!
# What a call stores

A call may store the data of any argument behind any reference that another argument holds.

* `storesOnly_mixArguments`: the storings that a call adds, and no others;
* `mem_supportOf_after_call`: which lifetimes come to rest on the data of an argument.

The call stores data in what the other arguments hold themselves. It does not look for what these
rest on in turn, so that the data behind the variable at an address stays as it was.
-/

namespace Regions.Flow

variable {env : Env} {recur : Recur} {s s₀ s' : State} {id : NodeId} {function : Path}
  {operands : List NodeId} {arguments : List Argument}

/-! ## The storings of a call -/

/-- A call stores `stored` in `container`: they are data of two arguments, and the container's
argument can hold something. -/
def CallStores (arguments : List Argument) (container stored : Lifetime) : Prop :=
  ∃ (i j : Nat) (giver taker : Argument), i ≠ j ∧ arguments[i]? = some giver ∧
    arguments[j]? = some taker ∧ taker.tracked = true ∧ stored ∈ giver.values ∧
      container ∈ taker.values

theorem storesOnly_storeBehind {stored container : Argument}
    (h : Runs (storeBehind stored container) s () s') :
    StoresOnly (fun c x => c ∈ container.values ∧ x ∈ stored.values) s s' := by
  have hinner : ∀ holder ∈ container.values, ∀ s s',
      Runs (stored.values.forM fun value => store value holder) s () s' →
      StoresOnly (fun c x => ∃ value ∈ stored.values, c = holder ∧ x = value) s s' :=
    fun holder _ s s' hrun => storesOnly_forM (fun value _ s s' => storesOnly_store) hrun
  refine (storesOnly_forM hinner h).congr fun c x => ?_
  constructor
  · rintro ⟨holder, hholder, value, hvalue, rfl, rfl⟩
    exact ⟨hholder, hvalue⟩
  · rintro ⟨hc, hx⟩
    exact ⟨c, hc, x, hx, rfl, rfl⟩

theorem storesOnly_mixArguments (h : Runs (mixArguments arguments) s () s') :
    StoresOnly (CallStores arguments) s s' := by
  have hpair : ∀ stored ∈ arguments.zipIdx, ∀ container ∈ arguments.zipIdx, ∀ s s',
      Runs (if stored.2 ≠ container.2 ∧ container.1.tracked then
        storeBehind stored.1 container.1 else pure ()) s () s' →
      StoresOnly (fun c x => (stored.2 ≠ container.2 ∧ container.1.tracked = true) ∧
        c ∈ container.1.values ∧ x ∈ stored.1.values) s s' := by
    intro stored _ container _ s s' hrun
    rcases runs_ite_iff.1 hrun with ⟨hcond, hrun⟩ | ⟨hcond, hrun⟩
    · exact (storesOnly_storeBehind hrun).congr fun c x => by simp [hcond]
    · rw [← (runs_pure_iff.1 hrun).2]
      exact StoresOnly.refl fun c x hadd => hcond hadd.1
  have hrow : ∀ stored ∈ arguments.zipIdx, ∀ s s',
      Runs (arguments.zipIdx.forM fun container => if stored.2 ≠ container.2 ∧
        container.1.tracked then storeBehind stored.1 container.1 else pure ()) s () s' → _ :=
    fun stored hstored s s' hrun => storesOnly_forM (hpair stored hstored) hrun
  refine (storesOnly_forM hrow h).congr fun c x => ?_
  simp only [List.mem_zipIdx_iff_getElem?, Prod.exists]
  constructor
  · rintro ⟨giver, i, hi, taker, j, hj, ⟨hne, htracked⟩, hc, hx⟩
    exact ⟨i, j, giver, taker, hne, hi, hj, htracked, hx, hc⟩
  · rintro ⟨i, j, giver, taker, hne, hi, hj, htracked, hx, hc⟩
    exact ⟨giver, i, hi, taker, j, hj, ⟨hne, htracked⟩, hc, hx⟩

theorem runs_argument_iff {operand : NodeId} {argument : Argument} :
    Runs (Flow.argument env operand) s argument s' ↔
      ∃ flow ty tracked, s.flowAt operand = some flow ∧ env.typeOf operand = .ok ty ∧
        env.tracked ty = .ok tracked ∧
        argument = ⟨flow.bundle.tracked, tracked⟩ ∧ s' = s := by
  simp only [Flow.argument, runs_bind_iff, runs_bundleOf_iff, runs_lift_iff, runs_pure_iff]
  constructor
  · rintro ⟨_, _, ⟨flow, hflow, rfl, rfl⟩, ty, _, ⟨hty, rfl⟩, tracked, _,
      ⟨htracked, rfl⟩, rfl, rfl⟩
    exact ⟨flow, ty, tracked, hflow, hty, htracked, rfl, rfl⟩
  · rintro ⟨flow, ty, tracked, hflow, hty, htracked, rfl, rfl⟩
    exact ⟨_, _, ⟨flow, hflow, rfl, rfl⟩, ty, _, ⟨hty, rfl⟩, tracked, _,
      ⟨htracked, rfl⟩, rfl, rfl⟩

theorem runs_arguments (h : Runs (operands.mapM (argument env)) s arguments s') :
    s' = s ∧ List.Forall₂
    (fun operand argument => Runs (Flow.argument env operand) s argument s) operands arguments := by
  refine runs_mapM_of_fixed (fun operand _ s argument s' hrun => ?_) h
  obtain ⟨_, _, _, _, _, _, _, hs⟩ := runs_argument_iff.1 hrun
  exact hs

theorem isNone_of_mem_values (h : Runs (operands.mapM (argument env)) s arguments s')
    {i : Nat} {argument : Argument} (hi : arguments[i]? = some argument) {l : Lifetime}
    (hl : l ∈ argument.values) : l.isNone = false := by
  obtain ⟨_, hall⟩ := runs_arguments h
  have hmem : argument ∈ arguments := List.mem_of_getElem? hi
  obtain ⟨operand, _, hrun⟩ := forall₂_mem_right hall hmem
  obtain ⟨flow, _, _, _, _, _, rfl, _⟩ := runs_argument_iff.1 hrun
  simpa using (List.mem_filter.1 hl).2

/-- What a successful call did: analyse the operands, look at their results, and store. -/
theorem runs_call (h : Runs (call env recur id function operands) s () s') :
    ∃ s₀ arguments s₁, Runs (operands.forM (recur .value)) s () s₀ ∧
      Runs (operands.mapM (argument env)) s₀ arguments s₀ ∧
      StoresOnly (CallStores arguments) s₀ s₁ ∧ s'.context.graph = s₁.context.graph ∧
      ∃ bundle, Finishes id bundle s₀ s' := by
  obtain ⟨_, s₀, hoperands, h⟩ := runs_bind_iff.1 h
  simp only [runs_ite_iff, runs_bind_iff, runs_throw_iff, false_and, exists_false, and_false,
    or_false] at h
  obtain ⟨-, arguments, s₀', harguments, _, s₁, hmix, ty, _, hty, fields, _, hfields, h⟩ :=
    h
  obtain ⟨hsame, -⟩ := runs_arguments harguments
  subst s₀'
  obtain ⟨-, rfl⟩ := runs_lift_iff.1 hty
  obtain ⟨-, rfl⟩ := runs_lift_iff.1 hfields
  have hstores := storesOnly_mixArguments hmix
  refine ⟨_, arguments, s₁, hoperands, harguments, hstores, ?_⟩
  obtain ⟨graph, rfl, hadds⟩ := hstores
  have hgrows : Grows s₀ (s₀.withGraph graph) := { Grows.refl s₀ with graph := hadds.below }
  -- The region of the result is no storing, and recording the result changes nothing else.
  rcases h with ⟨_, _, s₂, hroot, hrecord⟩ | ⟨_, hrecord⟩
  · obtain ⟨root, hroot⟩ := runs_discard_iff.1 hroot
    obtain ⟨-, rfl⟩ := runs_newRoot_iff.1 hroot
    obtain ⟨-, hcontext, -, -⟩ := runs_record hrecord
    exact ⟨by
      rw [hcontext]; rfl, _,
      finishes_of_runs (hgrows.trans (.of_extends (.insertRoot _ _))) rfl hrecord⟩
  · obtain ⟨-, hcontext, -, -⟩ := runs_record hrecord
    exact ⟨by rw [hcontext], _, finishes_of_runs hgrows rfl hrecord⟩

/-! ## What rests on the data of an argument afterwards -/

/-- The call lets `y` rest on the data `v` of argument `i`: `y` is data of another argument that
can hold something, or data of argument `i` itself, and what is stored there leads on to `v`. -/
def LeadsTo (graph : Outlives) (arguments : List Argument) (i : Nat) (v y : Lifetime) : Prop :=
  ∃ (k : Nat) (taker : Argument), arguments[k]? = some taker ∧ taker.tracked = true ∧
    y ∈ taker.values ∧
      (k ≠ i ∨ ∃ (l : Nat) (other : Argument), l ≠ i ∧ arguments[l]? = some other ∧
        ∃ x ∈ other.values, other.tracked = true ∨ graph.Reaches x v)

/-- In the graph with the storings of a call, `u` rests on the data `v` of argument `i` exactly if
it did before, or is or rested on something that leads to `v`. -/
theorem reaches_callStores_iff {G H : Outlives} (hadds : Outlives.Adds (CallStores arguments) G H)
    (hsome : ∀ (k : Nat) (argument : Argument), arguments[k]? = some argument →
      ∀ l ∈ argument.values, l.isNone = false)
    {i : Nat} {giver : Argument} (hi : arguments[i]? = some giver) {v : Lifetime}
    (hv : v ∈ giver.values) (u : Lifetime) :
    H.Reaches u v ↔ G.Reaches u v ∨ ∃ y, G.Reaches u y ∧ LeadsTo G arguments i v y := by
  have hnew : ∀ {k l : Nat} {taker other : Argument}, k ≠ l → arguments[k]? = some taker →
      arguments[l]? = some other → taker.tracked = true →
      ∀ y ∈ taker.values, ∀ x ∈ other.values, H.Reaches y x := by
    intro k l taker other hne hk hl htracked y hy x hx
    exact hadds.reaches ⟨l, k, other, taker, Ne.symm hne, hl, hk, htracked, hx, hy⟩
      (hsome k taker hk y hy) (hsome l other hl x hx)
  constructor
  · intro hreach
    induction hreach using Relation.ReflTransGen.head_induction_on with
    | refl => exact .inl (Outlives.Reaches.refl G v)
    | @head u w hstep _ ih =>
      rcases (hadds u w).1 hstep
        with ⟨⟨l, k, other, taker, hne, hl, hk, htracked, hw, hu⟩, _⟩ | hold
      · refine .inr ⟨u, Outlives.Reaches.refl G u, k, taker, hk, htracked, hu, ?_⟩
        by_cases hki : k = i
        · -- `u` is data of argument `i` itself: follow the path from what it holds now.
          subst hki
          refine .inr ?_
          rcases ih with hwv | ⟨y, _, k', taker', hk', htracked', hy, hk'i | hother⟩
          · exact ⟨l, other, hne, hl, w, hw, .inr hwv⟩
          · exact ⟨k', taker', hk'i, hk', y, hy, .inl htracked'⟩
          · exact hother
        · exact .inl hki
      · have hfirst := Outlives.Reaches.of_holds hold
        rcases ih with hwv | ⟨y, hwy, hleads⟩
        · exact .inl (hfirst.trans hwv)
        · exact .inr ⟨y, hfirst.trans hwy, hleads⟩
  · rintro (hreach
      | ⟨y, huy, k, taker, hk, htracked, hy, hki | ⟨l, other, hl, hother, x, hx, hend⟩⟩)
    · exact hreach.mono hadds.below
    · exact (huy.mono hadds.below).trans (hnew hki hk hi htracked y hy v hv)
    · refine (huy.mono hadds.below).trans ?_
      by_cases hki : k = i
      · subst hki
        have hyx := hnew (Ne.symm hl) hk hother htracked y hy x hx
        rcases hend with hother' | hxv
        · exact hyx.trans (hnew hl hother hi hother' x hx v hv)
        · exact hyx.trans (hxv.mono hadds.below)
      · exact hnew hki hk hi htracked y hy v hv

/-- Let `v` be data of argument `i` of a call. A lifetime rests on `v` after the call exactly if it
did before, or if it is or rests on data that leads to `v`. In particular `v` is stored in all
data of the other arguments that can hold something, but not in what that data rests on. The
variables keep their extents, and what rests on `v` rests on all regions that `v` does. -/
theorem mem_supportOf_after_call (hoperands : Runs (operands.forM (recur .value)) s () s₀)
    (harguments : Runs (operands.mapM (argument env)) s₀ arguments s₀)
    (hcall : Runs (call env recur id function operands) s () s') {i : Nat} {giver : Argument}
    (hi : arguments[i]? = some giver) {v : Lifetime} (hv : v ∈ giver.values) : (∀ u, u ≠ v →
      (v ∈ s'.context.graph.supportOf u ↔ v ∈ s₀.context.graph.supportOf u ∨
      ∃ y, (y = u ∨ y ∈ s₀.context.graph.supportOf u) ∧
        LeadsTo s₀.context.graph arguments i v y)) ∧
    (∀ (j : Nat) (taker : Argument), j ≠ i → arguments[j]? = some taker →
      taker.tracked = true →
      ∀ c ∈ taker.values, c ≠ v → v ∈ s'.context.graph.supportOf c) ∧
    (∀ path, s'.frame.lookup? path = s₀.frame.lookup? path) ∧
    ∀ u, v ∈ s'.context.graph.supportOf u →
      ∀ r ∈ s'.context.graph.rootsOf v, r ∈ s'.context.graph.rootsOf u := by
  obtain ⟨t, arguments', s₁, hoperands', harguments', ⟨graph, rfl, hadds⟩, hgraph, bundle,
    hfinishes⟩ := runs_call hcall
  obtain ⟨-, rfl⟩ := hoperands.det hoperands'
  obtain ⟨rfl, -⟩ := harguments.det harguments'
  change s'.context.graph = graph at hgraph
  have hiff := reaches_callStores_iff hadds (fun k argument hk l hl =>
    isNone_of_mem_values harguments hk hl) hi hv
  rw [hgraph]
  refine ⟨fun u hne => ?_, fun j taker hji hj htracked c hc hne => ?_, fun path => ?_,
    fun u hu r hr => ?_⟩
  · rw [← Outlives.reaches_iff_mem_supportOf (Ne.symm hne), hiff u,
      Outlives.reaches_iff_mem_supportOf (Ne.symm hne)]
    simp only [Outlives.reaches_iff]
  · rw [← Outlives.reaches_iff_mem_supportOf (Ne.symm hne), hiff c]
    exact .inr ⟨c, Outlives.Reaches.refl _ c, j, taker, hj, htracked, hc, .inl hji⟩
  · rw [hfinishes.frame]
  · rw [Outlives.mem_rootsOf_iff] at hr ⊢
    exact ⟨(Outlives.mem_supportOf_iff_reaches.1 hu).2.trans hr.1, hr.2⟩

/-- The body `p = new int; x = 0; stash(&p, &x)`. -/
def stashing : Env where
  declarations := { aggregates := ∅, functions := .ofList [(.single "stash",
    { path := .single "stash", returns := .void, parameters := [
      { name := "slot", ty := .pointer (.pointer .int) },
      { name := "value", ty := .pointer .int }] })] _ }
  options := {}
  owner := {
    id := ⟨0⟩
    kind := .function ⟨.single "f", [], .void, ⟨8⟩⟩
    nodes := .ofList [
      ⟨.new none, .pointer .int, default⟩,
      ⟨.declaration ⟨["f", "p"]⟩ ⟨0⟩, .void, default⟩,
      ⟨.literal (.int 0), .int, default⟩,
      ⟨.declaration ⟨["f", "x"]⟩ ⟨2⟩, .void, default⟩,
      ⟨.var ⟨["f", "p"]⟩, .pointer .int, default⟩,
      ⟨.addressOf ⟨4⟩, .pointer (.pointer .int), default⟩,
      ⟨.var ⟨["f", "x"]⟩, .int, default⟩,
      ⟨.addressOf ⟨6⟩, .pointer .int, default⟩,
      ⟨.call (.single "stash") [⟨5⟩, ⟨7⟩], .void, default⟩] }
  scope := .single "f"

/-- Before the call, the two variables are declared. -/
def beforeStash : FlowM Unit := do
  analyzeNode stashing 9 .value ⟨1⟩
  analyzeNode stashing 9 .value ⟨3⟩

set_option synthInstance.maxSize 256

/-- After `stash(&p, &x)`, the slot of `p` rests on that of `x`, but the data behind `p` does
not. -/
theorem mem_supportOf_after_stash : ∃ s s₀ s' arguments giver taker,
      Runs beforeStash (.start .initial 9) () s ∧
      Runs ([⟨5⟩, ⟨7⟩].forM (analyzeNode stashing 9 .value)) s () s₀ ∧
      Runs ([⟨5⟩, ⟨7⟩].mapM (argument stashing)) s₀ arguments s₀ ∧
      Runs (call stashing (analyzeNode stashing 9) ⟨8⟩ (.single "stash") [⟨5⟩, ⟨7⟩]) s
      () s' ∧
      arguments[1]? = some giver ∧ .root ⟨["f", "x"]⟩ .localSlot ∈ giver.values ∧
      arguments[0]? = some taker ∧ .root ⟨["f", "p"]⟩ .localSlot ∈ taker.values ∧
      .root ⟨["f", "x"]⟩ .localSlot ∈
        s'.context.graph.supportOf (.root ⟨["f", "p"]⟩ .localSlot) ∧
      .root ⟨["f", "x"]⟩ .localSlot ∉
        s'.context.graph.supportOf ⟨⟨["f", "p"]⟩, 0, .alias, .localValue⟩ := by
  have h : ∃ s, Runs beforeStash (.start .initial 9) () s ∧
      ∃ s₀, Runs ([⟨5⟩, ⟨7⟩].forM (analyzeNode stashing 9 .value)) s () s₀ ∧
      ∃ arguments s₁, Runs ([⟨5⟩, ⟨7⟩].mapM (argument stashing)) s₀ arguments s₁ ∧
      ∃ s', Runs (call stashing (analyzeNode stashing 9) ⟨8⟩ (.single "stash")
      [⟨5⟩, ⟨7⟩]) s () s' ∧
        (∃ giver, arguments[1]? = some giver ∧
        .root ⟨["f", "x"]⟩ .localSlot ∈ giver.values) ∧
        (∃ taker, arguments[0]? = some taker ∧ taker.tracked = true ∧
          .root ⟨["f", "p"]⟩ .localSlot ∈ taker.values) ∧
        .root ⟨["f", "x"]⟩ .localSlot ∉
          s'.context.graph.supportOf ⟨⟨["f", "p"]⟩, 0, .alias, .localValue⟩ := by
    decide +kernel
  obtain ⟨s, hs, s₀, hs₀, arguments, _, harguments, s', hcall, ⟨giver, hgiver, hx⟩,
    ⟨taker, htaker, htracked, hp⟩, hnot⟩ := h
  obtain ⟨rfl, -⟩ := runs_arguments harguments
  have hbehind := (mem_supportOf_after_call hs₀ harguments hcall hgiver hx).2.1
  exact ⟨s, _, s', arguments, giver, taker, hs, hs₀, harguments, hcall, hgiver, hx, htaker, hp,
    hbehind 0 taker (by decide) htaker htracked _ hp (by decide), hnot⟩

end Regions.Flow
