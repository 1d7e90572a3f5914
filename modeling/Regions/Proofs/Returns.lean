import Regions.Proofs.Freshness

/-!
# What a function returns

When the body of a function is done, its result is checked: none of its lifetimes may be a region of
storage that ends with the call, or rest on one. A result that passes counts as data in the heap
from then on. The heap is one lifetime for all functions, but nothing ever holds it, so that what is
stored in it changes nothing for the other lifetimes.

* `Dangles`: a region that ends with the call, and that returned data is or rests on;
* `offHeap`: the discipline by which the heap is never stored in anything;
* `returns_or_escapes`: which functions are rejected, what is reported, and what an accepted one
  changes.
-/

namespace Regions.Flow

variable {env : Env} {function : Function} {s s' : State}

/-! ## The check -/

/-- The graph with all the data stored in one container. -/
def storeAll (graph : Outlives) (values : List Lifetime) (container : Lifetime) : Outlives :=
  values.foldl (fun graph value => graph.store value container) graph

theorem runs_storeAll_iff {values : List Lifetime} {container : Lifetime} :
    Runs (values.forM fun value => store value container) s () s' ↔
      s' = s.withGraph (storeAll s.context.graph values container) := by
  induction values generalizing s with
  | nil => exact runs_forM_nil_iff.trans eq_comm
  | cons value values ih =>
    rw [runs_forM_cons_iff]
    constructor
    · rintro ⟨_, hfirst, hrest⟩
      obtain rfl := runs_store_iff.1 hfirst
      exact ih.1 hrest
    · rintro rfl
      exact ⟨_, runs_store_iff.2 rfl, ih.2 rfl⟩

theorem adds_storeAll (graph : Outlives) (values : List Lifetime) (container : Lifetime) :
    Outlives.Adds (fun c x => c = container ∧ x ∈ values) graph
    (storeAll graph values container) := by
  induction values generalizing graph with
  | nil => simp [storeAll, Outlives.Adds]
  | cons value values ih =>
    refine ((Outlives.adds_store graph value container none).trans (ih _)).congr fun c x => ?_
    simp [and_or_left]

theorem types_storeAll (graph : Outlives) (values : List Lifetime) (container : Lifetime) :
    (storeAll graph values container).types = graph.types := by
  induction values generalizing graph with
  | nil => rfl
  | cons value values ih =>
    rw [storeAll, List.foldl_cons]
    refine (ih _).trans ?_
    unfold Outlives.store
    by_cases hskip : value = container ∨ value.isNone = true ∨ container.isNone = true
    · rw [if_pos hskip]
    · rw [if_neg hskip]

/-- A checked return stores the returned data in the heap, and does nothing else. -/
theorem runs_checkReturn_iff : Runs (checkReturn env function) s () s' ↔
    ∃ flow, s.flowAt function.body = some flow ∧
    (returnRoots s.context.graph flow.bundle).isEmpty = true ∧
      s' = s.withGraph (storeAll s.context.graph flow.bundle.tracked .heap) := by
  simp only [checkReturn, runs_bind_iff, runs_bundleOf_iff, runs_get_iff, runs_ite_iff,
    runs_throw_iff, false_and, and_false, exists_false, or_false, runs_storeAll_iff]
  constructor
  · rintro ⟨_, _, ⟨flow, hflow, rfl, rfl⟩, _, _, ⟨rfl, rfl⟩, hempty, rfl⟩
    exact ⟨flow, hflow, hempty, rfl⟩
  · rintro ⟨flow, hflow, hempty, rfl⟩
    exact ⟨_, _, ⟨flow, hflow, rfl, rfl⟩, _, _, ⟨rfl, rfl⟩, hempty, rfl⟩

/-- A returned value that is accepted rests on no region. -/
theorem not_mem_rootsOf_of_checkReturn (h : Runs (checkReturn env function) s () s')
    {flow : NodeFlow} (hflow : s.flowAt function.body = some flow) {l : Lifetime}
    (hl : l ∈ flow.bundle.tracked) (root : Lifetime) : root ∉ s.context.graph.rootsOf l := by
  obtain ⟨found, hfound, hempty, -⟩ := runs_checkReturn_iff.1 h
  cases hflow.symm.trans hfound
  intro hroot
  have hmem := mem_returnRoots_iff.2 ⟨l, hl, hroot⟩
  rw [Std.ExtTreeSet.isEmpty_iff.1 hempty] at hmem
  exact Std.ExtTreeSet.not_mem_empty hmem

/-- Returned data that rests on a region is reported, and the state is left as it is. -/
theorem aborts_checkReturn_of_roots {flow : NodeFlow} {node : Node}
    (hflow : s.flowAt function.body = some flow) (hnode : env.node function.body = .ok node)
    (hroots : (returnRoots s.context.graph flow.bundle).isEmpty = false) :
    Aborts (checkReturn env function) s (.violation (.returnEscape function.path node.span
      (returnRoots s.context.graph flow.bundle).toList
      (heldVariables s.context.captures flow.escaping).toList)) s := by
  refine aborts_bind_iff.2 (.inr ⟨_, _, runs_bundleOf_iff.2 ⟨flow, hflow, rfl, rfl⟩, ?_⟩)
  refine aborts_bind_iff.2 (.inr ⟨_, _, runs_get_iff.2 ⟨rfl, rfl⟩, ?_⟩)
  dsimp only
  rw [if_neg (by simp [hroots])]
  refine aborts_bind_iff.2 (.inr ⟨_, _, runs_escapingOf_iff.2 ⟨flow, hflow, rfl, rfl⟩, ?_⟩)
  refine aborts_bind_iff.2 (.inr ⟨_, _, runs_lift_iff.2 ⟨hnode, rfl⟩, ?_⟩)
  exact aborts_bind_iff.2 (.inl (aborts_throw_iff.2 ⟨rfl, rfl⟩))

/-! ## The heap is not stored -/

/-- What a node or a variable has is not the heap itself, and what is stored is data. -/
def offHeap (env : Env) (base : Nat) : Discipline env where
  Valid := fun _ _ l => l.Slotted ∧ l ≠ .heap
  Holder := fun _ _ _ => True
  Edge := fun _ _ _ x => x.isNone = false ∧ x ≠ .heap
  Named := fun _ => True
  Bare := fun _ => True
  base := base
  least := 0
  valid_later := fun _ _ h => h
  edge_later := fun _ _ h => h
  edge := fun _ hx _ hsome => ⟨hsome, hx.2⟩
  edge_heap := fun hx hsome => ⟨hsome, hx.2⟩
  holder_of_valid := fun _ => trivial
  holder_of_edge := fun _ _ => trivial
  slotted := fun h => h.1
  named_of_slot := fun _ _ => trivial
  valid_none := ⟨Lifetime.slotted_none, by decide⟩
  valid_temp := fun _ _ _ _ => ⟨Lifetime.slotted_of_origin (by simp), by simp [Lifetime.heap]⟩
  valid_region := fun kind m _ _ _ =>
    ⟨Lifetime.slotted_root _ _,
      fun heq => tempPath_ne_heap kind _ m (congrArg Lifetime.path heq)⟩
  valid_variable := by
    rintro cur s path origin - horigin -
    refine ⟨Lifetime.slotted_root _ _, fun heq => ?_⟩
    have := congrArg Lifetime.origin heq
    rcases horigin with rfl | rfl <;> cases this
  valid_version := fun _ _ => ⟨Lifetime.slotted_of_origin (by simp), by simp [Lifetime.heap]⟩

/-- What is stored anywhere is data, and not the heap itself. -/
def KeepsOffHeap (graph : Outlives) : Prop :=
  ∀ c x, graph.Holds c x → x.isNone = false ∧ x ≠ .heap

theorem names_offHeap (base : Nat) : (offHeap env base).NamesVariables ∧
    ∀ parameters, (offHeap env base).NamesParameters parameters :=
  Discipline.NamesVariables.of_forall (fun _ => trivial) fun _ => trivial

theorem keepsOffHeap_of_precedes {program : Program} {decls : Declarations} {options : Options}
    {owner : Owner} {context : Context} (h : Precedes program decls options context owner) :
    KeepsOffHeap context.graph := by
  obtain ⟨before, after, results, -, hrun, rfl⟩ := h
  refine context_of_foldlM (P := fun context => KeepsOffHeap context.graph) ?_ ?_ hrun
  · intro owner _ function _ context s' hcontext hruns
    have hend := Discipline.inv_of_analyzeFunction (names_offHeap context.rebound.length).1
      ((names_offHeap _).2 _) (Discipline.inv_start rfl (Nat.zero_le _) hcontext) hruns
    exact hend.graph
  · exact fun c x hx => absurd hx (Digraph.not_adj_empty c x)

/-- Where the heap is not stored, storing in the heap changes nothing for other lifetimes. -/
theorem supportOf_storeAll {graph : Outlives} (hoff : KeepsOffHeap graph) (values : List Lifetime)
    {l : Lifetime} (hl : l ≠ .heap) :
    (storeAll graph values .heap).supportOf l = graph.supportOf l := by
  have hadds := adds_storeAll graph values .heap
  -- No way from a lifetime apart from the heap comes through the heap.
  have hreaches : ∀ k, (storeAll graph values .heap).Reaches l k → graph.Reaches l k ∧
      k ≠ .heap := by
    intro k hk
    induction hk with
    | refl => exact ⟨.refl _ _, hl⟩
    | @tail m k _ hstep ih =>
      rcases (hadds m k).1 hstep with ⟨⟨rfl, -⟩, -⟩ | hold
      · exact absurd rfl ih.2
      · exact ⟨ih.1.tail hold, (hoff m k hold).2⟩
  refine Std.ExtTreeSet.ext_mem fun k => ?_
  rw [Outlives.mem_supportOf_iff_reaches, Outlives.mem_supportOf_iff_reaches]
  exact and_congr_right fun _ => ⟨fun h => (hreaches k h).1, fun h => h.mono hadds.below⟩

/-! ## Functions -/

/-- The region ends with the call, and returned data is the region or rests on it. -/
def Dangles (graph : Outlives) (returned : Bundle) (r : Lifetime) : Prop :=
  (r.role = .root ∧ r.origin ≠ .heap) ∧ ∃ v ∈ returned.tracked, graph.Reaches v r

theorem mem_returnRoots_iff_dangles {graph : Outlives} {returned : Bundle}
    (hoff : KeepsOffHeap graph) {r : Lifetime} :
    r ∈ returnRoots graph returned ↔ Dangles graph returned r := by
  rw [mem_returnRoots_iff]
  constructor
  · rintro ⟨v, hv, hr⟩
    obtain ⟨hreach, hroot, hheap, -⟩ := Outlives.mem_rootsOf_iff.1 hr
    exact ⟨⟨by simpa [Lifetime.isRoot] using hroot, by simpa [Lifetime.isHeap] using hheap⟩,
      v, hv, hreach⟩
  · rintro ⟨⟨hroot, hheap⟩, v, hv, hreach⟩
    refine ⟨v, hv, Outlives.mem_rootsOf_iff.2 ⟨hreach, by simpa [Lifetime.isRoot] using hroot,
      by simpa [Lifetime.isHeap] using hheap, ?_⟩⟩
    -- A lifetime without data is neither returned nor stored.
    rcases Relation.ReflTransGen.cases_tail hreach with rfl | ⟨c, -, hstep⟩
    · obtain ⟨-, _, -, rfl, hsome⟩ := Bundle.mem_tracked_iff.1 hv
      exact hsome
    · exact (hoff c r hstep).1

/-- A function that does not return nothing, and whose body has been analysed, is rejected if and
only if a region dangles from the result of the body. It is then rejected in the state after the
body, and the regions that are reported are all those that dangle, in ascending order. A function
that is accepted has stored the lifetimes of its result in the heap, without a type, and changed
nothing else; what any lifetime but the heap rests on stays the same. -/
theorem returns_or_escapes {program : Program} {decls : Declarations} {options : Options}
    {owner : Owner} {context : Context} (hprecedes : Precedes program decls options context owner)
    (hvoid : function.returns.isVoid = false) (hbody : Runs (do
      declareParameters (.ofFunction decls options owner function) function.parameters
      analyzeNode (.ofFunction decls options owner function) owner.depth .value function.body)
      (.start context owner.nodes.size) () s) :
    ∃ flow node, s.flowAt function.body = some flow ∧
    owner.nodes.get? function.body = some node ∧
      ((∃ r, Dangles s.context.graph flow.bundle r) → ∃ roots captured,
        Aborts (analyzeFunction (.ofFunction decls options owner function) function)
          (.start context owner.nodes.size)
          (.violation (.returnEscape function.path node.span roots captured)) s ∧
        roots.Pairwise (fun a b => compare a b = .lt) ∧
        ∀ r, r ∈ roots ↔ Dangles s.context.graph flow.bundle r) ∧
      ((¬ ∃ r, Dangles s.context.graph flow.bundle r) → ∃ graph,
        Runs (analyzeFunction (.ofFunction decls options owner function) function)
          (.start context owner.nodes.size) () (s.withGraph graph) ∧
        (∀ c x, graph.Holds c x ↔ s.context.graph.Holds c x ∨ c = .heap ∧
          x ∈ flow.bundle.tracked) ∧
        graph.types = s.context.graph.types ∧
        ∀ l, l ≠ .heap → graph.supportOf l = s.context.graph.supportOf l) := by
  obtain ⟨_, s₀, hdeclared, hrun⟩ := runs_bind_iff.1 hbody
  obtain ⟨flow, hflow⟩ := exists_flowAt_of_analyzeNode hrun
  -- The parameters have no results, so that the body was there to be analysed.
  obtain ⟨-, hfresh⟩ := runs_declareParameters (fun _ hp => hp)
    (fun q extent hlookup => by simp [lookup?_start] at hlookup) hdeclared
  obtain ⟨below, node, -, hnode, -⟩ :=
    runs_analyzeNode hrun ((hfresh _).trans (flowAt_start _ _ _))
  have hs := Discipline.inv_of_analyzeNode (names_offHeap context.rebound.length).1
    (Discipline.inv_of_declareParameters (names_offHeap _).1 ((names_offHeap _).2 _)
      (Discipline.inv_start rfl (Nat.zero_le _) (keepsOffHeap_of_precedes hprecedes))
        hdeclared) hrun
  have hoff : KeepsOffHeap s.context.graph := hs.graph
  have hempty : (returnRoots s.context.graph flow.bundle).isEmpty = true ↔
      ¬ ∃ r, Dangles s.context.graph flow.bundle r := by
    simp only [Std.ExtTreeSet.isEmpty_iff, Std.ExtTreeSet.eq_empty_iff_forall_not_mem,
      mem_returnRoots_iff_dangles hoff, not_exists]
  refine ⟨flow, node, hflow, env_node_eq_ok_iff.1 hnode, fun hdangles => ?_, fun hsafe => ?_⟩
  · have habort := aborts_checkReturn_of_roots hflow hnode
      (Bool.eq_false_iff.2 fun h => hempty.1 h hdangles)
    refine ⟨(returnRoots s.context.graph flow.bundle).toList,
      (heldVariables s.context.captures flow.escaping).toList, ?_,
      Std.ExtTreeSet.ordered_toList, fun r => ?_⟩
    · rw [analyzeFunction, ← bind_assoc]
      refine aborts_bind_iff.2 (.inr ⟨(), s, hbody, ?_⟩)
      rwa [if_neg (by simp [hvoid])]
    · rw [Std.ExtTreeSet.mem_toList, mem_returnRoots_iff_dangles hoff]
  · refine ⟨storeAll s.context.graph flow.bundle.tracked .heap, ?_, fun c x => ?_,
      types_storeAll _ _ _, fun l hl => supportOf_storeAll hoff _ hl⟩
    · rw [analyzeFunction, ← bind_assoc]
      refine runs_bind_iff.2 ⟨(), s, hbody, ?_⟩
      rw [if_neg (by simp [hvoid])]
      exact runs_checkReturn_iff.2 ⟨flow, hflow, hempty.2 hsafe, rfl⟩
    · rw [adds_storeAll _ _ _ c x, or_comm]
      refine or_congr_right ⟨And.left, fun hedge => ⟨hedge, ?_⟩⟩
      -- What is returned is data, and not the heap itself.
      obtain ⟨rfl, hx⟩ := hedge
      obtain ⟨hvalid, hsome⟩ := (hs.recorded _ _ hflow).tracked hx
      exact ⟨hvalid.2, hsome, rfl⟩

/-- With `struct Pair { int* left; int* right; }`, the function
`Pair f() { x = 0; y = 0; Pair { left: &y, right: &x } }`. -/
def returningPair : List Item := [
  .aggregate .struct "Pair" [⟨"left", .pointer .int, true⟩, ⟨"right", .pointer .int, true⟩],
  .function "f" [] (.nominal (.single "Pair") .struct) (.block [
    .declare "x" (.literal (.int 0)),
    .declare "y" (.literal (.int 0)), .record (.nominal (.single "Pair") .struct)
      [("left", .addressOf (.var "y")), ("right", .addressOf (.var "x"))]])]

/-- Both variables are reported, in the order of their names. -/
theorem escapes_of_returningPair : ∃ assembly owner function s span roots captured,
    Program.ofItems returningPair = .ok assembly ∧
      Aborts (analyzeFunction (.ofFunction assembly.declarations {} owner function) function)
        (.start .initial owner.nodes.size)
        (.violation (.returnEscape function.path span roots captured)) s ∧
      roots.Pairwise (fun a b => compare a b = .lt) ∧
      .root ⟨["f", "$block_0", "x"]⟩ .localSlot ∈ roots ∧
      .root ⟨["f", "$block_0", "y"]⟩ .localSlot ∈ roots := by
  have h : ∃ assembly, Program.ofItems returningPair = .ok assembly ∧
      ∃ owner ∈ assembly.program.owners, assembly.program.Only owner ∧
      ∃ function, owner.kind = .function function ∧
      function.returns.isVoid = false ∧ ∃ s, Runs (do
          declareParameters (.ofFunction assembly.declarations {} owner function)
            function.parameters
          analyzeNode (.ofFunction assembly.declarations {} owner function) owner.depth .value
            function.body)
        (.start .initial owner.nodes.size) () s ∧ ∃ flow, s.flowAt function.body = some flow ∧
        ∀ name ∈ ["x", "y"], ∃ v ∈ flow.bundle.tracked,
        .root ⟨["f", "$block_0", name]⟩ .localSlot = v ∨
          .root ⟨["f", "$block_0", name]⟩ .localSlot ∈ s.context.graph.supportOf v := by
    decide +kernel
  obtain ⟨assembly, hitems, owner, -, honly, function, -, hvoid, s, hbody, flow, hflow,
    hreturned⟩ := h
  obtain ⟨flow', node, hflow', -, hescapes, -⟩ :=
    returns_or_escapes (precedes_of_only assembly.declarations {} honly) hvoid hbody
  cases hflow.symm.trans hflow'
  have hdangles : ∀ name ∈ ["x", "y"], Dangles s.context.graph flow.bundle
      (.root ⟨["f", "$block_0", name]⟩ .localSlot) := by
    intro name hname
    obtain ⟨v, hv, hreach⟩ := hreturned name hname
    exact ⟨⟨rfl, by simp [Lifetime.root]⟩, v, hv, Outlives.reaches_iff.2 hreach⟩
  obtain ⟨roots, captured, haborts, hsorted, hroots⟩ := hescapes ⟨_, hdangles "x" (by simp)⟩
  exact ⟨assembly, owner, function, s, _, roots, captured, hitems, haborts, hsorted,
    (hroots _).2 (hdangles "x" (by simp)), (hroots _).2 (hdangles "y" (by simp))⟩

end Regions.Flow
