import Regions.Proofs.Assignments

/-!
# Writes through references inside loops

A write through a reference stores the written data in everything that the reference rests on when
the place is named. What the reference comes to rest on only after that, through the edges that flow
back to the start of the loop, does not get the data.

* `exists_rule_run`: a node that got its result inside a run had its rule run there;
* `supports_of_writeThrough`: what holds the data that is written through a reference;
* `supports_after_loop`: which lifetimes rest on the data after a loop.
-/

namespace Regions.Flow

variable {env : Env} {s s' : State} {id node : NodeId} {depth : Nat} {position : Position}

/-! ## Rules that ran inside a run -/

/-- Between the two states, the rule of the node ran. -/
def RuleRan (env : Env) (node : NodeId) (s s' : State) : Prop :=
  ∃ depth position expr s₁ s₂, (∃ ty span, env.node node = .ok ⟨expr, ty, span⟩) ∧
    Grows s s₁ ∧
    Runs (rule env (analyzeNode env depth) position node expr) s₁ () s₂ ∧ Grows s₂ s'

theorem RuleRan.mono {t t' : State} (h : RuleRan env node s s') (hbefore : Grows t s)
    (hafter : Grows s' t') : RuleRan env node t t' := by
  obtain ⟨depth, position, expr, s₁, s₂, hnode, h₁, hrun, h₂⟩ := h
  exact ⟨depth, position, expr, s₁, s₂, hnode, hbefore.trans h₁, hrun, h₂.trans hafter⟩

/-- The state grows, and every node in `S` that gets a result had its rule run. -/
def RunsRules (env : Env) (S : NodeId → Prop) (s s' : State) : Prop :=
  Grows s s' ∧ ∀ node, S node → s.flowAt node = none → s'.flowAt node ≠ none →
    RuleRan env node s s'

theorem RunsRules.of_flowAt {S : NodeId → Prop} (hgrows : Grows s s')
    (hflow : ∀ node, S node → s'.flowAt node = s.flowAt node) : RunsRules env S s s' :=
  ⟨hgrows, fun node hS hbefore hafter => absurd ((hflow node hS).trans hbefore) hafter⟩

/-- Inside the rule of a node, every other node gets its result from its own rule. -/
theorem preserved_runsRules : Preserved (RunsRules env (· ≠ id)) id where
  refl := fun s => .of_flowAt (Grows.refl s) fun _ _ => rfl
  trans := by
    rintro s₁ s₂ s₃ ⟨hgrows, hrules⟩ ⟨hgrows', hrules'⟩
    refine ⟨hgrows.trans hgrows', fun node hne hbefore hafter => ?_⟩
    cases hmiddle : s₂.flowAt node with
    | none => exact (hrules' node hne hmiddle hafter).mono hgrows (Grows.refl s₃)
    | some flow =>
      have hran := hrules node hne hbefore (by simp [hmiddle])
      exact hran.mono (Grows.refl s₁) hgrows'
  context := fun s context h => .of_flowAt ((preserved_grows id).context s context h) fun _ _ => rfl
  frame := fun s frame => .of_flowAt (Grows.frame s frame) fun _ _ => rfl
  adopt := by
    intro version slot s u s' hrun
    refine .of_flowAt ((respected_grows id).adopt version slot s u s' hrun) fun node _ => ?_
    obtain ⟨frame, -, rfl⟩ := runs_adopt_iff.1 hrun
    rfl
  record := by
    intro bundle escaping s u s' hrun
    refine .of_flowAt (Grows.of_record hrun) fun node hne => ?_
    obtain ⟨-, -, -, hflow⟩ := runs_record hrun
    rw [hflow node, if_neg hne]

theorem respected_runsRules : Respected (Kept (RunsRules env (· ≠ id))) id :=
  preserved_runsRules.respected

/-- Every node that gets its result while a node is analysed had its rule run. -/
theorem runsRules_analyzeNode (depth : Nat) (position : Position) (id : NodeId) :
    Keeps (RunsRules env fun _ => True) (analyzeNode env depth position id) := by
  induction depth generalizing position id with
  | zero => exact fun _ _ _ hrun => (runs_throw_iff.1 hrun).elim
  | succ depth ih =>
    intro s u s' hrun
    cases hbefore : s.flowAt id with
    | some flow =>
      rw [runs_analyzeNode_of_recorded hrun hbefore]
      exact .of_flowAt (Grows.refl s) fun _ _ => rfl
    | none =>
      obtain ⟨below, node, hdepth, hnode, hrule⟩ := runs_analyzeNode hrun hbefore
      cases hdepth
      have hchild : ∀ position child,
          Keeps (RunsRules env (· ≠ id)) (analyzeNode env depth position child) :=
        fun position child s u s' hrun =>
          ⟨(ih position child s u s' hrun).1,
            fun node _ => (ih position child s u s' hrun).2 node trivial⟩
      have hrules : Fixed (Kept (RunsRules env (· ≠ id)))
          (rule env (analyzeNode env depth) position id node.expr) :=
        respected_runsRules.rule hnode (fun position child _ => hchild position child) position
      have hkeeps := hrules s u s' hrule
      refine ⟨hkeeps.1, fun other _ hother hafter => ?_⟩
      by_cases hne : other = id
      · subst hne
        exact ⟨depth, position, node.expr, s, s', ⟨node.ty, node.span, hnode⟩,
          Grows.refl s, hrule, Grows.refl s'⟩
      · exact hkeeps.2 other hne hother hafter

/-! ## Data written through a reference -/

variable {target value : NodeId} {pointer : Extent} {ty : Ty}

/-- On the way from `s` to `s'` the operands of the node are analysed, and it is named as the place
behind what `reference` refers to in the state `named` that this leads to. -/
inductive NamedBehind (env : Env) (depth : Nat) (id reference : NodeId) (s named s' : State) :
    Extent → Prop
  | dereference {ty : Ty} {span : Span} {flow : NodeFlow} {pointer : Extent}
      (hnode : env.node id = .ok ⟨.dereference reference, ty, span⟩)
      (hreference : Runs (analyzeNode env depth .value reference) s () named)
      (hflow : named.flowAt reference = some flow) (hwhole : flow.bundle.whole? = some pointer)
      (hwrite : Runs (writeThrough env "deref" id reference pointer) named () s') :
      NamedBehind env depth id reference s named s' pointer
  | index {subscript : NodeId} {ty : Ty} {span : Span} {s₁ : State} {flow : NodeFlow}
      {array : Extent} (hnode : env.node id = .ok ⟨.index reference subscript, ty, span⟩)
      (hreference : Runs (analyzeNode env depth .value reference) s () s₁)
      (hsubscript : Runs (analyzeNode env depth .value subscript) s₁ () named)
      (hflow : named.flowAt reference = some flow) (hwhole : flow.bundle.whole? = some array)
      (hwrite : Runs (writeThrough env "index" id reference (.ofValue array.value)) named () s') :
      NamedBehind env depth id reference s named s' (.ofValue array.value)

namespace NamedBehind

variable {reference : NodeId} {named : State}

theorem grows (h : NamedBehind env depth id reference s named s' pointer) : Grows s named := by
  cases h with
  | dereference _ hreference => exact grows_analyzeNode env depth _ _ _ _ _ hreference
  | index _ hreference hsubscript =>
    exact (grows_analyzeNode env depth _ _ _ _ _ hreference).trans
      (grows_analyzeNode env depth _ _ _ _ _ hsubscript)

theorem exists_writeThrough (h : NamedBehind env depth id reference s named s' pointer) :
    ∃ kind, Runs (writeThrough env kind id reference pointer) named () s' := by
  cases h with
  | dereference _ _ _ _ hwrite => exact ⟨_, hwrite⟩
  | index _ _ _ _ _ hwrite => exact ⟨_, hwrite⟩

end NamedBehind

/-- A place behind a reference is named after the reference was analysed. -/
theorem exists_namedBehind (hexpr : ∃ expr ty span, env.node target = .ok ⟨expr, ty, span⟩ ∧
      ((∃ reference, expr = .dereference reference) ∨
        ∃ reference subscript, expr = .index reference subscript))
    (hfresh : s.flowAt target = none) (h : Runs (analyzeNode env depth .place target) s () s') :
    ∃ below reference named pointer, depth = below + 1 ∧
      NamedBehind env below target reference s named s' pointer := by
  obtain ⟨expr, ty, span, hnode, hexpr⟩ := hexpr
  obtain ⟨below, node, rfl, hnode', hrule⟩ := runs_analyzeNode h hfresh
  obtain rfl := Except.ok.inj (hnode.symm.trans hnode')
  rcases hexpr with ⟨reference, rfl⟩ | ⟨reference, subscript, rfl⟩
  · obtain ⟨named, flow, pointer, hreference, hflow, hwhole, hwrite⟩ := runs_dereference hrule
    exact ⟨below, reference, named, pointer, rfl,
      .dereference hnode hreference hflow hwhole hwrite⟩
  · obtain ⟨s₁, named, flow, array, hreference, hsubscript, hflow, hwhole, hwrite⟩ :=
      runs_index hrule
    exact ⟨below, reference, named, _, rfl,
      .index hnode hreference hsubscript hflow hwhole hwrite⟩

/-- What is written through a reference that is not resolved is stored in everything that the
reference rests on at this point. -/
theorem reaches_of_writeThrough {kind : String} {reference : NodeId}
    (h : Runs (writeThrough env kind target reference pointer) s () s')
    (hty : env.typeOf target = .ok ty)
    (hunresolved : Runs (resolve? env pointer ty .write) s none s) :
    ∃ places escaping, s'.flowAt target = some ⟨places, escaping⟩ ∧
      ∀ (path : Path) (place : Extent), places[path]? = some place →
      place.slot = pointer.value ∧
        (place.value.isNone = false → ∀ u, u = pointer.value ∨ u ∈ s.context.graph.supportOf
          pointer.value → u.isNone = false → s'.context.graph.Reaches u place.value) ∧
        ∃ fields, env.fields ty = .ok fields ∧ ∃ field ∈ fields, field.path = path ∧
          (field.tracked = true → place.value.isNone = false) := by
  obtain ⟨ty', hty', ⟨bundle, hresolved, _⟩
      | ⟨_, fields, s₁, hfields, ⟨G, rfl, hadds⟩, hrecorded⟩⟩ :=
    runs_writeThrough h
  · obtain rfl := Except.ok.inj (hty.symm.trans hty')
    cases (hunresolved.det hresolved).1
  · obtain rfl := Except.ok.inj (hty.symm.trans hty')
    obtain ⟨escaping, hself⟩ := hrecorded.self
    refine ⟨_, escaping, hself, fun path place hplace => ?_⟩
    obtain ⟨field, hfield, hentry⟩ := List.mem_map.1 (mem_of_getElem?_ofList hplace)
    cases hentry
    refine ⟨rfl, fun hsome u hu hu' => ?_, fields, hfields, field, hfield, rfl, fun htracked => by
      simp [Env.behind, htracked, Env.writtenAt, Lifetime.isNone]⟩
    rw [hrecorded.graph]
    have htracked : field.tracked = true := by
      cases hfalse : field.tracked with
      | true => rfl
      | false => simp [Env.behind, hfalse, Lifetime.isNone, Lifetime.none] at hsome
    refine hadds.reaches ⟨field, hfield, htracked, ?_, hu.symm⟩ hu' hsome
    simp [Env.behind, htracked]

/-- An assignment to a place that is no slot stores the data there. -/
theorem reaches_of_assignFields {places assigned : Bundle} {span : Span} {fields : List Field}
    (h : Runs (fields.forM (assignField env id places assigned span)) s () s') {field : Field}
    (hfield : field ∈ fields) {new : Extent} (hnew : assigned[field.path]? = some new)
    (hsome' : new.value.isNone = false) : ∃ place, places[field.path]? = some place ∧
    (place.slot.isSlot = false → place.value.isNone = false →
      s'.context.graph.Reaches place.value new.value) := by
  induction h using runs_forM_rec with
  | nil => cases hfield
  | cons first rest hfirst hrest ih =>
    rcases List.mem_cons.1 hfield with rfl | hfield
    · have hgrows := grows_assignFields _ _ _ hrest
      obtain ⟨place, new', hplace, hnew', hrun⟩ := runs_assignField hfirst
      obtain rfl := Option.some.inj (hnew.symm.trans hnew')
      refine ⟨place, hplace, fun hslot hsome => ?_⟩
      simp only [assignMember, hslot, hsome', if_false, runs_bind_iff, runs_store_iff,
        Bool.false_eq_true] at hrun
      obtain ⟨_, s₂, _, rfl⟩ := hrun
      exact (Outlives.reaches_store hsome' hsome _).mono hgrows.graph
    · exact ih hfield

/-! ## After a loop -/

/-- Every node that gets its result inside a loop had its rule run. -/
theorem ruleRan_of_loop {condition body : NodeId}
    (h : Runs (loop env (analyzeNode env depth) id condition body) s () s') (hne : node ≠ id)
    (hbefore : s.flowAt node = none) (hafter : s'.flowAt node ≠ none) :
    RuleRan env node s s' := by
  have hchild : ∀ child, Keeps (RunsRules env (· ≠ id))
      (analyzeNode env depth .value child) := by
    intro child s u s' hrun
    have hall := runsRules_analyzeNode depth .value child s u s' hrun
    exact ⟨hall.1, fun node _ => hall.2 node trivial⟩
  have hloop : Fixed (Kept (RunsRules env (· ≠ id)))
      (loop env (analyzeNode env depth) id condition body) :=
    respected_runsRules.leadsLast (Coupling.loop (C := respected_runsRules.coupling env)
      (respected_runsRules.leads (hchild condition) fun _ => trivial)
      (respected_runsRules.leads (hchild body) fun _ => trivial))
  exact (hloop s () s' h).2 node hne hbefore hafter

/-- Let an assignment be analysed inside a loop whose target lies behind a reference. When its
target is named through a reference that is not resolved to a variable, its data is stored in all
that the location of the target rests on in that state. After the loop, whatever rests on what was
written rests on the data; what the location comes to rest on through the loop itself need not be
among that. -/
theorem supports_after_loop {condition body : NodeId}
    (hloop : Runs (loop env (analyzeNode env depth) id condition body) s () s') (hne : node ≠ id)
    (hassign : ∃ ty span, env.node node = .ok ⟨.assignment target value, ty, span⟩)
    (hexpr : ∃ expr ty span, env.node target = .ok ⟨expr, ty, span⟩ ∧
      ((∃ reference, expr = .dereference reference) ∨
        ∃ reference subscript, expr = .index reference subscript))
    (hbefore : s.flowAt node = none) (hafter : s'.flowAt node ≠ none) :
    ∃ below s₁ t₀ t places assigned ty fields, Grows s s₁ ∧
      Runs (analyzeNode env below .place target) s₁ () t₀ ∧
      Runs (analyzeNode env below .value value) t₀ () t ∧ Grows t s' ∧
      t.flowAt target = some places ∧ t.flowAt value = some assigned ∧
      env.typeOf target = .ok ty ∧ env.fields ty = .ok fields ∧
      ∀ field ∈ fields, ∀ place new, places.bundle[field.path]? = some place →
        assigned.bundle[field.path]? = some new → place.value.isNone = false →
        place.slot.isSlot = false → new.value.isNone = false →
        (s₁.flowAt target = none → ∃ kind reference pointer named, Grows s₁ named ∧
          Runs (writeThrough env kind target reference pointer) named () t₀ ∧
          (Runs (resolve? env pointer ty .write) named none named → place.slot = pointer.value ∧
            ∀ u, u = place.slot ∨ u ∈ named.context.graph.supportOf place.slot →
              u.isNone = false → u ≠ new.value →
              new.value ∈ s'.context.graph.supportOf u)) ∧
        ∀ u, u ≠ new.value → s'.context.graph.Reaches u place.value →
          new.value ∈ s'.context.graph.supportOf u := by
  obtain ⟨below, position, expr, s₁, s₂, ⟨nodeTy, nodeSpan, hnode⟩, hs₁,
      hrule, hs₂⟩ :=
    ruleRan_of_loop hloop hne hbefore hafter
  obtain ⟨assignTy, assignSpan, hassign⟩ := hassign
  obtain ⟨rfl, -, -⟩ := Node.mk.inj (Except.ok.inj (hassign.symm.trans hnode))
  cases position with
  | place => exact (runs_throw_iff.1 hrule).elim
  | value =>
    obtain ⟨t₀, t, places, assigned, valueNode, ty, fields, t', htarget, hvalue,
      hplaces, hassigned, -, hty, hfields, hloop', hrecorded, hgrows⟩ := runs_assign hrule
    have hgrowsValue := grows_analyzeNode env below .value value _ _ _ hvalue
    have hgrowsEnd : Grows t s' := hgrows.trans hs₂
    refine ⟨below, s₁, t₀, t, places, assigned, ty, fields, hs₁, htarget, hvalue, hgrowsEnd,
      hplaces, hassigned, hty, hfields, ?_⟩
    intro field hfield place new hplace hnew hsome hslot hsome'
    obtain ⟨place', hplace', hstored⟩ := reaches_of_assignFields hloop' hfield hnew hsome'
    cases hplace.symm.trans hplace'
    replace hstored := hstored hslot hsome
    have hwritten : s'.context.graph.Reaches place.value new.value := by
      rw [← hrecorded.graph] at hstored
      exact hstored.mono hs₂.graph
    -- What rests on what was written rests on the data.
    have hthrough : ∀ u, u ≠ new.value → s'.context.graph.Reaches u place.value →
        new.value ∈ s'.context.graph.supportOf u := fun u hu hreach =>
      Outlives.mem_supportOf_iff_reaches.2 ⟨Ne.symm hu, hreach.trans hwritten⟩
    refine ⟨fun hfresh => ?_, hthrough⟩
    obtain ⟨_, reference, named, pointer, -, hbehind⟩ := exists_namedBehind hexpr hfresh htarget
    obtain ⟨kind, hwrite⟩ := hbehind.exists_writeThrough
    refine ⟨kind, reference, pointer, named, hbehind.grows, hwrite, fun hunresolved => ?_⟩
    obtain ⟨bundle, escaping, hself, hbundle⟩ := reaches_of_writeThrough hwrite hty hunresolved
    have hkept := hgrowsValue.recorded target _ hself
    obtain rfl := Option.some.inj (hplaces.symm.trans hkept)
    obtain ⟨hlocation, hholders, -⟩ := hbundle field.path place hplace
    refine ⟨hlocation, fun u hu hu' hne => hthrough u hne ?_⟩
    rw [hlocation] at hu
    exact ((hholders hsome u hu hu').mono hgrowsValue.graph).mono hgrowsEnd.graph

/-- The nodes of `x = 0; q = new int*; p = new int*; while true (*p = &x; p = q)`. -/
def writing : Env where
  declarations := ∅
  options := {}
  owner := {
    id := ⟨0⟩
    kind := .function ⟨.single "f", [], .void, ⟨16⟩⟩
    nodes := .ofList [
      ⟨.literal (.int 0), .int, default⟩,
      ⟨.declaration ⟨["f", "x"]⟩ ⟨0⟩, .void, default⟩,
      ⟨.new none, .pointer (.pointer .int), default⟩,
      ⟨.declaration ⟨["f", "q"]⟩ ⟨2⟩, .void, default⟩,
      ⟨.new none, .pointer (.pointer .int), default⟩,
      ⟨.declaration ⟨["f", "p"]⟩ ⟨4⟩, .void, default⟩,
      ⟨.literal (.bool true), .bool, default⟩,
      ⟨.var ⟨["f", "p"]⟩, .pointer (.pointer .int), default⟩,
      ⟨.dereference ⟨7⟩, .pointer .int, default⟩,
      ⟨.var ⟨["f", "x"]⟩, .int, default⟩,
      ⟨.addressOf ⟨9⟩, .pointer .int, default⟩,
      ⟨.assignment ⟨8⟩ ⟨10⟩, .void, default⟩,
      ⟨.var ⟨["f", "q"]⟩, .pointer (.pointer .int), default⟩,
      ⟨.var ⟨["f", "p"]⟩, .pointer (.pointer .int), default⟩,
      ⟨.assignment ⟨13⟩ ⟨12⟩, .void, default⟩,
      ⟨.block [⟨11⟩, ⟨14⟩], .void, default⟩,
      ⟨.loop ⟨6⟩ ⟨15⟩, .void, default⟩] }
  scope := .single "f"

/-- Before the loop, the three variables are declared. -/
def beforeWriting : FlowM Unit := do
  analyzeNode writing 18 .value ⟨1⟩
  analyzeNode writing 18 .value ⟨3⟩
  analyzeNode writing 18 .value ⟨5⟩

/-- On later iterations `*p = &x` writes into `q`. The data behind `q` is something that the
location of the write rests on after the loop, but it does not come to rest on `x`. -/
theorem not_supports_after_writing : ∃ s s', Runs beforeWriting (.start .initial 17) () s ∧
      Runs (loop writing (analyzeNode writing 18) ⟨16⟩ ⟨6⟩ ⟨15⟩) s () s' ∧
      s.flowAt ⟨11⟩ = none ∧ s'.flowAt ⟨11⟩ ≠ none ∧
      ∃ places assigned place new, s'.flowAt ⟨8⟩ = some places ∧
      s'.flowAt ⟨10⟩ = some assigned ∧
        places.bundle[Path.whole]? = some place ∧ assigned.bundle[Path.whole]? = some new ∧
        new.value = .root ⟨["f", "x"]⟩ .localSlot ∧
        ∃ u ∈ s'.context.graph.supportOf place.slot, u ≠ new.value ∧
          new.value ∉ s'.context.graph.supportOf u ∧
          ¬ s'.context.graph.Reaches u place.value := by
  have h : ∃ s, Runs beforeWriting (.start .initial 17) () s ∧
      ∃ s', Runs (loop writing (analyzeNode writing 18) ⟨16⟩ ⟨6⟩ ⟨15⟩) s () s' ∧
        s.flowAt ⟨11⟩ = none ∧ s'.flowAt ⟨11⟩ ≠ none ∧
        (∃ places, s'.flowAt ⟨8⟩ = some places ∧ places.bundle[Path.whole]? =
          some ⟨⟨⟨["f", "$deref_8"]⟩, 0, .alias, .temporary⟩,
            ⟨⟨["f", "p"]⟩, 1, .alias, .localValue⟩⟩) ∧
        (∃ assigned, s'.flowAt ⟨10⟩ = some assigned ∧ assigned.bundle[Path.whole]? =
          some (.ofValue (.root ⟨["f", "x"]⟩ .localSlot))) ∧
        ⟨⟨["f", "q"]⟩, 0, .alias, .localValue⟩ ∈
          s'.context.graph.supportOf ⟨⟨["f", "p"]⟩, 1, .alias, .localValue⟩ ∧
        .root ⟨["f", "x"]⟩ .localSlot ∉
          s'.context.graph.supportOf ⟨⟨["f", "q"]⟩, 0, .alias, .localValue⟩ := by
    decide +kernel
  obtain ⟨s, hs, s', hloop, hbefore, hafter, ⟨places, hplaces, hplace⟩,
    ⟨assigned, hassigned, hnew⟩, hq, hx⟩ := h
  obtain ⟨below, s₁, t₀, t, places', assigned', ty, fields, -, -, -, hgrows, hplaces',
    hassigned', hty, hfields, hall⟩ := supports_after_loop hloop (by decide) ⟨_, _, rfl⟩
      ⟨_, _, _, rfl, .inl ⟨_, rfl⟩⟩ hbefore hafter
  obtain rfl := Option.some.inj (hplaces.symm.trans (hgrows.recorded _ _ hplaces'))
  obtain rfl := Option.some.inj (hassigned.symm.trans (hgrows.recorded _ _ hassigned'))
  have hfields' : writing.fields (.pointer .int) = .ok [⟨.whole, .pointer .int, true⟩] := by
    decide +kernel
  obtain rfl : Ty.pointer .int = ty := Except.ok.inj hty
  obtain rfl := Except.ok.inj (hfields'.symm.trans hfields)
  obtain ⟨-, hthrough⟩ := hall _ (List.mem_singleton_self _) _ _ hplace hnew rfl rfl rfl
  refine ⟨s, s', hs, hloop, hbefore, hafter, places, assigned, _, _, hplaces,
    hassigned, hplace, hnew,
    rfl, _, hq, by decide, hx, fun hreach => hx (hthrough _ (by decide) hreach)⟩

end Regions.Flow
