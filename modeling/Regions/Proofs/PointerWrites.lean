import Regions.Proofs.Extents
import Regions.Proofs.LoopWrites

/-!
# Writes through references

An assignment whose target lies behind a reference names the target first: everything that the
reference rests on at that point comes to hold a new lifetime for each member behind it. Then the
value is analysed, and its data is stored in these lifetimes, member by member. No variable gets a
new version.

* `ComesTo.flowAt_operand`: in a tree, a node is come to before its operands have results;
* `runs_assignFields_behind`: the members of a place behind a reference are checked, and bind
  nothing;
* `reaches_upstream`: all that a reference rests on comes to rest on what is written through it.
-/

namespace Regions.Flow

variable {env : Env} {function : Function} {context : Context} {id target value reference : NodeId}
  {depth : Nat} {s s' : State}

/-! ## Trees -/

/-- In a tree, no operand of a node has a result when the node is come to. -/
theorem ComesTo.flowAt_operand {ids : List NodeId} (h : ComesTo env function context id s)
    (hwalk : env.owner.walkFrom depth function.body = .ok ids) (hnodup : ids.Nodup) {node : Node}
    (hnode : env.node id = .ok node) {operand : NodeId}
    (hoperand : operand ∈ node.expr.children) : s.flowAt operand = none := by
  obtain ⟨⟨position, hvisits⟩, -⟩ := h.passesBy.visits_and_flowAt
  -- The analysis that is halted at the node does not go on to the operand, which is below no other
  -- node.
  let X : Setting := ⟨env, function.parameters, fun position other =>
    Traverses env [function.body] position other ∧ other ≠ operand⟩
  have hbody : X.visits .value function.body := by
    refine ⟨.root (List.mem_singleton_self _), fun heq => ?_⟩
    exact root_not_mem_children hwalk hnodup (mem_walk_of_traverses hvisits hwalk) hnode
      (heq ▸ hoperand)
  have htraces : Traces ⟨none, []⟩ (.start context env.owner.nodes.size) ⟨none, []⟩
      (analyzeBody env function (· = .before id)) (.start context env.owner.nodes.size)
      (.halting fun _ => True) fun _ (_ : Progress X) _ => True := by
    refine .bind (.declareParameters rfl) fun _ p₁ s₁ hp₁ => ?_
    refine (passable_analyzeUntil (X := X) _ (Watch.guides_halting _ X) ?_
      (fun _ _ _ _ _ _ => trivial)
      (fun _ _ _ _ _ _ _ _ _ _ => trivial) _ (.inl trivial) hbody p₁ s₁ hp₁
        trivial).embed.weaken
      fun _ _ _ _ => trivial
    rintro position' other found ⟨htraverses, -⟩ hbefore hfound use huse
    refine ⟨.use htraverses hfound huse, ?_⟩
    rintro rfl
    have heq := treelike_ofFunction hwalk hnodup hvisits htraverses hnode hfound hoperand
      (Expr.mem_children_of_mem_uses huse)
    simp [heq] at hbefore
  have hhalted := htraces (.refl _ _)
  rw [h.passesBy] at hhalted
  obtain ⟨p', hinside, -⟩ := hhalted
  by_contra hsome
  obtain ⟨flow, hflow⟩ := Option.ne_none_iff_exists'.1 hsome
  exact hinside.flows (X := X) (F := fun other _ => other ≠ operand)
    (fun _ task _ _ _ _ => task.visited.2)
    (coherent_start _ _) (by simp [flowAt_start]) operand flow hflow rfl

/-! ## Members of a place behind a reference -/

variable {places assigned : Bundle} {span : Span} {container : Lifetime}

/-- A member of a place that is no slot: data for it is checked before it is stored. -/
theorem runs_assignMember_behind {place new : Extent} {field : Field}
    (hslot : place.slot.isSlot = false) (h : Runs (assignMember env place new span field) s () s') :
    s'.frame = s.frame ∧ (env.options.checkHeapStores = true →
      isHeapBacked s.context.graph place.slot = true → new.value.isNone = false →
      s.context.graph.rootsOf new.value = ∅) := by
  simp only [assignMember, hslot, Bool.false_eq_true, if_false, check, runs_ite_iff, runs_pure_iff,
    runs_bind_iff, runs_modifyContext_iff, runs_store_iff] at h
  rcases h with ⟨hnone, -, rfl⟩ | ⟨-, _, _, ⟨_, _, rfl, hverify⟩, rfl⟩
  · exact ⟨rfl, fun _ _ hsome => absurd hnone (by simp [hsome])⟩
  · obtain ⟨rfl, hroots⟩ := runs_verify hverify
    refine ⟨rfl, fun hcheck hbacked _ => ?_⟩
    exact Std.ExtTreeSet.eq_empty_iff_forall_not_mem.2 (hroots hcheck hbacked)

/-- The members of a place behind a reference are checked one after the other, and no variable is
bound. -/
theorem runs_assignFields_behind
    (hplaces : ∀ (path : Path) place, places[path]? = some place → place.slot = container)
    (hslot : container.isSlot = false) {fields : List Field}
    (h : Runs (fields.forM (assignField env id places assigned span)) s () s') :
    s'.frame = s.frame ∧ (env.options.checkHeapStores = true → ∀ before field after,
      fields = before ++ field :: after → ∀ new, assigned[field.path]? = some new →
      new.value.isNone = false →
        ∃ t, Runs (before.forM (assignField env id places assigned span)) s () t ∧
          (isHeapBacked t.context.graph container = true →
            t.context.graph.rootsOf new.value = ∅)) := by
  induction h using runs_forM_rec with
  | nil => exact ⟨rfl, fun _ before field after hsplit => by simp at hsplit⟩
  | cons first rest hfirst _ ih =>
    obtain ⟨hframe, hchecked⟩ := ih
    obtain ⟨place, data, hplace, hdata, hmember⟩ := runs_assignField hfirst
    obtain rfl := hplaces _ _ hplace
    obtain ⟨hframe', hroots⟩ := runs_assignMember_behind hslot hmember
    refine ⟨hframe.trans hframe', fun hcheck before field after hsplit new hnew hsome => ?_⟩
    rcases List.cons_eq_append_iff.1 hsplit with ⟨rfl, hsplit⟩ | ⟨before, rfl, rfl⟩
    · obtain ⟨rfl, rfl⟩ := List.cons.inj hsplit
      cases hdata.symm.trans hnew
      exact ⟨_, runs_forM_nil_iff.2 rfl, fun hbacked => hroots hcheck hbacked hsome⟩
    · obtain ⟨t, hbefore, hempty⟩ := hchecked hcheck before field after rfl new hnew hsome
      exact ⟨t, runs_forM_cons_iff.2 ⟨_, hfirst, hbefore⟩, hempty⟩

/-! ## Assignments -/

/-- Where only data is stored, that stays so while a place behind a reference is named. -/
theorem NamedBehind.keepsOffHeap {named : State} {pointer : Extent} {base : Nat}
    (h : NamedBehind env depth target reference s named s' pointer)
    (hs : (offHeap env base).Inv none s) : KeepsOffHeap named.context.graph := by
  have hnames : (offHeap env base).NamesVariables := (names_offHeap base).1
  cases h with
  | dereference _ hreference => exact (Discipline.inv_of_analyzeNode hnames hs hreference).graph
  | index _ hreference hsubscript =>
    have hs₁ := Discipline.inv_of_analyzeNode hnames hs hreference
    exact (Discipline.inv_of_analyzeNode hnames hs₁ hsubscript).graph

theorem isNone_of_mem_supportOf {graph : Outlives} (hoff : KeepsOffHeap graph) {l u : Lifetime}
    (hl : l.isNone = false) (hu : u = l ∨ u ∈ graph.supportOf l) : u.isNone = false := by
  rcases hu with rfl | hu
  · exact hl
  · obtain ⟨-, hreach⟩ := Outlives.mem_supportOf_iff_reaches.1 hu
    rcases Relation.ReflTransGen.cases_tail hreach with rfl | ⟨c, -, hstep⟩
    · exact hl
    · exact (hoff c u hstep).1

/-- Let an assignment in a tree be analysed whose target lies behind a reference that is not
resolved to a variable, and let what the reference refers to be data that is no slot. For each
member of the target's type that carries references, the data of the assigned value then is
something that the reference, and everything it rested on when the target was named, rests on. The
stores bind no variable. If heap memory is checked and the reference is backed by it, no data rests
on a region just before it is stored. -/
theorem reaches_upstream {program : Program} {decls : Declarations} {options : Options}
    {owner : Owner} {ids : List NodeId} (hprecedes : Precedes program decls options context owner)
    (hkind : owner.kind = .function function) (hwalk : owner.walk = .ok ids) (hnodup : ids.Nodup)
    (henv : env = .ofFunction decls options owner function)
    (hcomes : ComesTo env function context id s)
    (hassign : ∃ ty span, owner.nodes.get? id = some ⟨.assignment target value, ty, span⟩)
    (hexpr : ∃ expr ty span, owner.nodes.get? target = some ⟨expr, ty, span⟩ ∧
      ((∃ reference, expr = .dereference reference) ∨
        ∃ reference subscript, expr = .index reference subscript))
    (hrun : Runs (analyzeNode env depth .value id) s () s') :
    ∃ below reference named t₀ t pointer places assigned span ty fields, depth = below + 2 ∧
      NamedBehind env below target reference s named t₀ pointer ∧
      Runs (analyzeNode env (below + 1) .value value) t₀ () t ∧ Grows t s' ∧
      t.flowAt target = some places ∧ t.flowAt value = some assigned ∧
      env.typeOf target = .ok ty ∧ env.fields ty = .ok fields ∧
      (Runs (resolve? env pointer ty .write) named none named → pointer.value.isNone = false →
        pointer.value.isSlot = false →
        (∀ field ∈ fields,
          (∀ other ∈ fields, other.path = field.path → other.tracked = true) →
          ∀ new, assigned.bundle[field.path]? = some new → new.value.isNone = false →
            ∀ u, u = pointer.value ∨ u ∈ named.context.graph.supportOf pointer.value →
            u ≠ new.value → new.value ∈ s'.context.graph.supportOf u) ∧
        s'.frame = t.frame ∧
        (env.options.checkHeapStores = true → ∀ before field after, fields = before ++
          field :: after →
          ∀ new, assigned.bundle[field.path]? = some new → new.value.isNone = false →
            ∃ t₁, Runs
            (before.forM (assignField env id places.bundle assigned.bundle span)) t () t₁ ∧
              (isHeapBacked t₁.context.graph pointer.value = true →
                t₁.context.graph.rootsOf new.value = ∅))) := by
  subst henv
  obtain ⟨assignTy, assignSpan, hassign⟩ := hassign
  obtain ⟨expr, exprTy, exprSpan, hexprNode, hexpr⟩ := hexpr
  obtain ⟨below, node, rfl, hnode, hrule⟩ :=
    runs_analyzeNode hrun hcomes.passesBy.visits_and_flowAt.2
  cases hassign.symm.trans (env_node_eq_ok_iff.1 hnode)
  obtain ⟨t₀, t, places, assigned, valueNode, ty, fields, t', htarget, hvalue, hplaces,
    hassigned, -, hty, hfields, hloop, hrecorded, hend⟩ := runs_assign hrule
  -- In a tree, the target is named now, and was not before.
  have hwalkFrom := (Owner.walk_eq hkind).symm.trans hwalk
  have hfresh : s.flowAt target = none :=
    hcomes.flowAt_operand hwalkFrom hnodup hnode (by simp [Expr.children])
  obtain ⟨below, reference, named, pointer, rfl, hbehind⟩ :=
    exists_namedBehind ⟨expr, exprTy, exprSpan, env_node_eq_ok_iff.2 hexprNode, hexpr⟩
      hfresh htarget
  refine ⟨below, reference, named, t₀, t, pointer, places, assigned, valueNode.span, ty,
    fields, rfl, hbehind,
    hvalue, hend, hplaces, hassigned, hty, hfields, fun hunresolved hsome hslot => ?_⟩
  obtain ⟨kind, hwrite⟩ := hbehind.exists_writeThrough
  obtain ⟨bundle, escaping, hself, hbundle⟩ := reaches_of_writeThrough hwrite hty hunresolved
  have hgrows := grows_analyzeNode _ _ .value value _ _ _ hvalue
  cases hplaces.symm.trans (hgrows.recorded target _ hself)
  obtain ⟨hframe, hchecked⟩ :=
    runs_assignFields_behind (fun path place hplace => (hbundle path place hplace).1) hslot hloop
  refine ⟨fun field hfield htracked new hnew hnew' u hu hne => ?_,
    hrecorded.frame.trans hframe, hchecked⟩
  obtain ⟨place, hplace, hstored⟩ := reaches_of_assignFields hloop hfield hnew hnew'
  obtain ⟨hlocation, hholders, fields', hfields', other, hother, hpath, hplaced⟩ :=
    hbundle _ _ hplace
  cases hfields.symm.trans hfields'
  have hplace' : place.value.isNone = false := hplaced (htracked other hother hpath)
  have hoff : KeepsOffHeap named.context.graph := by
    refine hbehind.keepsOffHeap (Discipline.inv_of_comesTo (names_offHeap context.rebound.length).1
      ((names_offHeap _).2 _) ?_ hcomes).2
    exact Discipline.inv_start rfl (Nat.zero_le _) (keepsOffHeap_of_precedes hprecedes)
  -- From what rests on the reference to the new lifetime behind it, and on to the data.
  have hwritten := hholders hplace' u hu (isNone_of_mem_supportOf hoff hsome hu)
  have hreach := ((hwritten.mono hgrows.graph).mono (grows_assignFields _ _ _ hloop).graph).trans
    (hstored (hlocation ▸ hslot) hplace')
  rw [hrecorded.graph]
  exact Outlives.mem_supportOf_iff_reaches.2 ⟨hne.symm, hreach⟩

/-! ## Two writes -/

/-- In a tree, the assignment of `new` through `pointer`, which is named in the state `named`. -/
structure WritesBehind (env : Env) (id target value reference : NodeId) (s named s' : State)
    (pointer new : Extent) (fields : List Field) : Prop where
  tree : ∃ ids, env.owner.walk = .ok ids ∧ ids.Nodup
  assignment : ∃ ty span, env.owner.nodes.get? id = some ⟨.assignment target value, ty, span⟩
  place : ∃ ty span, env.owner.nodes.get? target = some ⟨.dereference reference, ty, span⟩ ∧
    env.fields ty = .ok fields ∧ Runs (resolve? env pointer ty .write) named none named
  run : Runs (analyzeNode env 5 .value id) s () s'
  operand : Runs (analyzeNode env 3 .value reference) s () named
  pointed : ∃ flow, named.flowAt reference = some flow ∧ flow.bundle.whole? = some pointer ∧
    pointer.value.isNone = false ∧ pointer.value.isSlot = false
  data : ∃ flow, s'.flowAt value = some flow ∧ flow.bundle.whole? = some new ∧
    new.value.isNone = false

/-- The assignment is one in a tree, and its two states, what the pointer refers to, the assigned
data and the fields are as said. -/
def ShowsBehind (id target value reference : NodeId)
    (P : State → State → Lifetime → Lifetime → List Field → Prop)
    (env : Env) (s : State) : Prop :=
  (∃ ids, env.owner.walk = .ok ids ∧ ids.Nodup) ∧
  (∃ node, env.owner.nodes.get? id = some node ∧ node.expr = .assignment target value) ∧
  ∃ node, env.owner.nodes.get? target = some node ∧ node.expr = .dereference reference ∧
  ∃ fields, env.fields node.ty = .ok fields ∧
  ∃ s', Runs (analyzeNode env 5 .value id) s () s' ∧
  ∃ named, Runs (analyzeNode env 3 .value reference) s () named ∧
  ∃ flow, named.flowAt reference = some flow ∧
  ∃ pointer, flow.bundle.whole? = some pointer ∧
    (∃ bundle? t, Runs (resolve? env pointer node.ty .write) named bundle? t ∧
    bundle? = none) ∧
    pointer.value.isNone = false ∧ pointer.value.isSlot = false ∧
  ∃ assigned, s'.flowAt value = some assigned ∧ ∃ new, assigned.bundle.whole? = some new ∧
    new.value.isNone = false ∧ P named s' pointer.value new.value fields

instance {P : State → State → Lifetime → Lifetime → List Field → Prop}
    [∀ named s' pointer new fields, Decidable (P named s' pointer new fields)] :
    Decidable (ShowsBehind id target value reference P env s) := by
  delta ShowsBehind
  infer_instance

theorem ShowsBehind.exists {P : State → State → Lifetime → Lifetime → List Field → Prop}
    (h : ShowsBehind id target value reference P env s) :
    ∃ named s' pointer new fields, WritesBehind env id target value reference s named s'
    pointer new fields ∧ P named s' pointer.value new.value fields := by
  obtain ⟨htree, ⟨⟨_, _, _⟩, hassign, rfl⟩, ⟨_, _, _⟩, htarget, rfl, fields, hfields,
    s', hrun, named, hoperand, flow,
    hflow, pointer, hpointer, ⟨_, _, hresolved, rfl⟩, hsome, hslot, assigned, hassigned, new,
    hnew, hnew', hP⟩ := h
  cases runs_resolve? hresolved
  exact ⟨named, s', pointer, new, fields, {
    tree := htree
    assignment := ⟨_, _, hassign⟩
    place := ⟨_, _, htarget, hfields, hresolved⟩
    run := hrun
    operand := hoperand
    pointed := ⟨flow, hflow, hpointer, hsome, hslot⟩
    data := ⟨assigned, hassigned, hnew, hnew'⟩ }, hP⟩

/-- `f(int** p, int* a) { q = p; *q = a }`. -/
def writingThroughCopy : List Item := [
  .function "f" [⟨"p", .pointer (.pointer .int), true⟩, ⟨"a", .pointer .int, true⟩]
    .void (.block [ .declare "q" (.var "p"),
    .assign (.dereference (.var "q")) (.var "a")])]

/-- The data that was passed for a parameter. -/
def passedFor (name : String) : Lifetime := .root ⟨["f", name]⟩ .localValue

/-- A write through a copy of a parameter reaches the parameter. -/
theorem reaches_parameter_through_copy : ∃ assembly owner function s named s' pointer new fields,
      Program.ofItems writingThroughCopy = .ok assembly ∧
      Precedes assembly.program assembly.declarations {} .initial owner ∧
      ComesTo (.ofFunction assembly.declarations {} owner function) function .initial ⟨5⟩ s ∧
      WritesBehind (.ofFunction assembly.declarations {} owner function) ⟨5⟩ ⟨3⟩ ⟨4⟩
      ⟨2⟩ s named s' pointer new fields ∧
      passedFor "p" ∈ named.context.graph.supportOf pointer.value ∧
      passedFor "a" ∈ s'.context.graph.supportOf (passedFor "p") := by
  have h : AcceptsAt writingThroughCopy ⟨5⟩
      (ShowsBehind ⟨5⟩ ⟨3⟩ ⟨4⟩ ⟨2⟩ fun named _ pointer new fields =>
      new = passedFor "a" ∧ passedFor "p" ∈ named.context.graph.supportOf pointer ∧
      (∃ field ∈ fields, field.path = .whole) ∧
      ∀ field ∈ fields, field.tracked = true) := by
    decide +kernel
  obtain ⟨assembly, hitems, results, -, owner, -, honly, function, hkind, s, hcomes, hshows⟩ :=
    h
  have hprecedes := precedes_of_only assembly.declarations {} honly
  obtain ⟨named, s', pointer, new, fields, hwrites, hnew, hp, ⟨field, hfield, hpath⟩,
    htracked⟩ := hshows.exists
  obtain ⟨ids, hwalk, hnodup⟩ := hwrites.tree
  obtain ⟨ty, span, htarget, hfields, hunresolved⟩ := hwrites.place
  obtain ⟨below, reference, named', t₀, t, pointer', places, assigned, span', ty', fields',
    hdepth, hbehind, -, hgrows, -, hassigned, hty, hfields', hreaches⟩ :=
    reaches_upstream hprecedes hkind hwalk hnodup rfl hcomes hwrites.assignment
      ⟨_, _, _, htarget, .inl ⟨_, rfl⟩⟩ hwrites.run
  -- The state in which the pointer is named is that of the test.
  obtain rfl : below = 3 := by omega
  have hnode : (Env.ofFunction assembly.declarations {} owner function).node ⟨3⟩ =
      .ok ⟨.dereference ⟨2⟩, ty, span⟩ := env_node_eq_ok_iff.2 htarget
  cases hbehind with
  | index hnode' => cases hnode.symm.trans hnode'
  | dereference hnode' hoperand hflow hwhole =>
    cases hnode.symm.trans hnode'
    obtain ⟨-, rfl⟩ := hwrites.operand.det hoperand
    obtain ⟨flow, hflow', hwhole', hsome, hslot⟩ := hwrites.pointed
    cases hflow.symm.trans hflow'
    cases hwhole.symm.trans hwhole'
    obtain ⟨data, hdata, hdata', hsome'⟩ := hwrites.data
    cases hdata.symm.trans (hgrows.recorded _ _ hassigned)
    have hty' : ty = ty' := by
      rw [Env.typeOf, hnode] at hty
      exact Except.ok.inj hty
    subst hty'
    cases hfields.symm.trans hfields'
    have hstored := (hreaches hunresolved hsome hslot).1 field hfield
      (fun other hother _ => htracked other hother)
      new (hpath ▸ hdata') hsome' _ (.inr hp)
    rw [hnew] at hstored
    exact ⟨assembly, owner, function, s, named, s', pointer, new, fields, hitems, hprecedes,
      hcomes, hwrites, hp, hstored (by decide)⟩

/-- With `struct S { int x; int* y; }`, `f(int* p, int* a) { *p = S { x: a, y: a }.x }`. -/
def writingMistyped : List Item := [
  .aggregate .struct "S" [⟨"x", .int, true⟩, ⟨"y", .pointer .int, true⟩],
  .function "f" [⟨"p", .pointer .int, true⟩, ⟨"a", .pointer .int, true⟩] .void (.block [
    .assign (.dereference (.var "p")) (.member (.record (.nominal (.single "S") .struct)
      [("x", .var "a"), ("y", .var "a")]) "x")])]

/-- Data in a member without references is not stored behind the pointer. -/
theorem not_reaches_through_mistyped : ∃ assembly owner function s named s' pointer new fields,
      Program.ofItems writingMistyped = .ok assembly ∧
      Precedes assembly.program assembly.declarations {} .initial owner ∧
      ComesTo (.ofFunction assembly.declarations {} owner function) function .initial ⟨6⟩ s ∧
      WritesBehind (.ofFunction assembly.declarations {} owner function) ⟨6⟩ ⟨1⟩ ⟨5⟩
      ⟨0⟩ s named s' pointer new fields ∧
      ¬ ∀ u, u = pointer.value ∨ u ∈ named.context.graph.supportOf pointer.value →
      u ≠ new.value → new.value ∈ s'.context.graph.supportOf u := by
  have h : AcceptsAt writingMistyped ⟨6⟩
      (ShowsBehind ⟨6⟩ ⟨1⟩ ⟨5⟩ ⟨0⟩ fun _ s' pointer new _ =>
      pointer ≠ new ∧ new ∉ s'.context.graph.supportOf pointer) := by
    decide +kernel
  obtain ⟨assembly, hitems, results, -, owner, -, honly, function, -, s, hcomes, hshows⟩ := h
  obtain ⟨named, s', pointer, new, fields, hwrites, hne, hnot⟩ := hshows.exists
  exact ⟨assembly, owner, function, s, named, s', pointer, new, fields, hitems,
    precedes_of_only _ _ honly, hcomes, hwrites, fun hall => hnot (hall _ (.inl rfl) hne)⟩

end Regions.Flow
