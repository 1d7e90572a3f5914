import Regions.Proofs.Lineages

/-!
# Memory that was checked

Where the stores to the heap are checked, memory is only given data that rests on no storage of
variables. The check is made when the memory is allocated. Later on the data may come to rest on
more: it may be the version which a variable has at the start of a loop, where other versions flow
back when the loop ends. This is why the check is repeated there.

In a function that goes through no references nothing else can add to what the data rests on, so
that what was found by the last check holds in the end.

* `Owner.Enclosed`, `Surveyed`: functions that go through no references, and their results;
* `Secured`: the check has found that the data rests on no storage of variables;
* `Secured.isSlot_eq_false`: what is stored later only adds copies to what the data leads to;
* `Steps.allSealed`: all data in memory that the function allocates has been secured.
-/

namespace Regions

/-- The nodes go through no references and put none into calls, nor into heap memory where this is
not checked. -/
structure Owner.Enclosed (decls : Declarations) (options : Flow.Options) (owner : Owner)
    (inside : NodeId → Prop) : Prop where
  direct : ∀ id node, inside id → owner.nodes.get? id = some node →
    (∀ target, node.expr ≠ .dereference target) ∧
    ∀ target subscript, node.expr ≠ .index target subscript
  arguments : ∀ id node callee arguments, inside id → owner.nodes.get? id = some node →
    node.expr = .call callee arguments →
    ∀ argument ∈ arguments, ¬ owner.Refers decls argument
  initializers : options.checkHeapStores = false → ∀ id node value, inside id →
    owner.nodes.get? id = some node → node.expr = .new (some value) →
      ¬ owner.Refers decls value

namespace Flow

variable {X : Setting} {function : Function} {context : Context} {p p' : Progress X}
  {s s' base : State} {c l x : Lifetime} {sources : Lifetime → Option Lifetime}
  {id value : NodeId} {node : Node}

/-! ## Functions that go through no references -/

/-- The results of a function that goes through no references. -/
structure Surveyed (X : Setting) (function : Function) (s : State) : Prop where
  sound : X.Sound function
  tracks : ∀ id node, X.env.owner.nodes.get? id = some node →
    ∃ b, X.env.declarations.tracked node.ty = .ok b
  enclosed : X.env.owner.Enclosed X.env.declarations X.env.options fun id =>
    ∃ position, X.visits position id
  outlined : Outlined X s
  attested : ∀ id flow, s.flowAt id = some flow → Attested X s id flow

namespace Surveyed

variable (h : Surveyed X function s) {flow : NodeFlow}

include h

/-- No node goes through a reference. -/
theorem not_pointer {position : Position} (hvisits : X.visits position id)
    (hnode : X.env.node id = .ok node) {s₀ : State} {kind : String} {pointer : Extent} :
    ¬ Pointer s₀ node.expr kind pointer := by
  intro hpointer
  obtain ⟨hdereference, hindex⟩ :=
    h.enclosed.direct id node ⟨_, hvisits⟩ (env_node_eq_ok_iff.1 hnode)
  generalize node.expr = expr at *
  cases hpointer with
  | dereference => exact hdereference _ rfl
  | index => exact hindex _ _ rfl

/-- A place names a variable, which it holds on to. -/
theorem names (hplace : X.visits .place id) (hflow : s.flowAt id = some flow) :
    ∃ y n, Names X.env.owner.nodes id y n ∧ y ∈ flow.escaping := by
  refine h.sound.acyclic.induction h.sound.closed
    (P := fun position id => position = .place → ∀ flow, s.flowAt id = some flow →
      ∃ y n, Names X.env.owner.nodes id y n ∧ y ∈ flow.escaping) ?_ hplace rfl flow hflow
  rintro _ id hvisits ih rfl flow hflow
  obtain ⟨task, s₀, rfl, -, hgrows, hresult, hescapes, -⟩ := h.attested id flow hflow
  have hposition := h.sound.unique _ _ _ task.visited hvisits
  have hnode := env_node_eq_ok_iff.1 task.found
  have ih := ih task.node task.found
  have hpointer : ∀ {kind pointer}, ¬ Pointer s₀ task.node.expr kind pointer :=
    h.not_pointer task.visited task.found
  rw [hposition] at hresult hescapes
  -- Only variables and members of places can be named without going through a reference.
  generalize hexpr : task.node.expr = expr at hresult hescapes ih hpointer
  cases expr with
  | var y => exact ⟨y, .whole, .var hnode hexpr, hescapes⟩
  | memberAccess target name =>
    obtain ⟨held, hheld, hsub⟩ := hescapes
    obtain ⟨y, n, hnames, hy⟩ := ih (.place, target) (by simp [Expr.uses]) rfl held hheld
    exact ⟨y, n.child name, .member hnode hexpr hnames, hsub y hy⟩
  | dereference target | index target subscript =>
    obtain ⟨kind, pointer, fields, hpointer', -⟩ := hresult
    exact (hpointer hpointer').elim
  | _ => exact hresult.elim

/-- Storage behind references is never assigned to. -/
theorem isSlot_of_assigning {task : Task X} {field : Field} {place new : Extent}
    (hassigning : Assigning s task field place new) : place.slot.isSlot = true := by
  obtain ⟨target, value, places, assigned, ty, fields, hexpr, htarget, -, -, -, -, hplace, -⟩ :=
    hassigning.operands
  have huses := h.sound.closed _ _ _ task.visited task.found
  rw [hassigning.position, hexpr] at huses
  have hplaced : X.visits .place target := huses (.place, target) (by simp [Expr.uses])
  obtain ⟨y, n, hnames, -⟩ := h.names hplaced htarget
  exact (h.outlined.anchors htarget hplaced hnames hplace).isSlot_slot

/-- Calls mix no arguments. -/
theorem not_tracked_of_argument {task : Task X} {callee : Path} {arguments : List NodeId}
    (hexpr : task.node.expr = .call callee arguments) {argument : NodeId}
    (hargument : argument ∈ arguments) {ty : Ty} (hty : X.env.typeOf argument = .ok ty) :
    X.env.tracked ty ≠ .ok true := by
  intro htracked
  obtain ⟨node, hnode, hnodeTy⟩ := except_bind_eq_ok hty
  cases hnodeTy
  exact h.enclosed.arguments task.id task.node callee arguments ⟨_, task.visited⟩
    (env_node_eq_ok_iff.1 task.found) hexpr argument hargument
      ⟨node, env_node_eq_ok_iff.1 hnode, htracked⟩

/-- A node stores data in what it makes. -/
theorem madeBy_of_stores {task : Task X} (hstores : Stores s' task c x) :
    MadeBy X.env task.id c := by
  cases hstores with
  | read _ hpointer | written _ hpointer =>
    exact (h.not_pointer task.visited task.found hpointer).elim
  | inserted => exact ⟨.inl rfl, "struct", .whole, (Path.append_whole _).symm⟩
  | initialized => exact ⟨.inr rfl, "new", .whole, (Path.append_whole _).symm⟩
  | joined => exact ⟨.inl rfl, "if", _, rfl⟩
  | mixed _ hexpr _ _ hcontainer _ _ hty htracked =>
    exact absurd htracked (h.not_tracked_of_argument hexpr (List.mem_of_getElem? hcontainer) hty)

end Surveyed

/-! ## Data that was checked -/

/-- Between nodes, the data rests on no storage of variables. -/
structure Secured (X : Setting) (context : Context) (s : State) (x : Lifetime) : Prop where
  orderly : ∃ p : Progress X, p.task = none ∧ Orderly context p s
  held : ∃ c, s.context.graph.Holds c x
  rootless : ∀ root, root ∉ s.context.graph.rootsOf x

theorem Secured.reached (h : Secured X context s x) (hl : s.context.graph.Reaches x l) :
    (∃ c, s.context.graph.Holds c l) ∧ l.isSlot = false := by
  obtain ⟨p, -, hs⟩ := h.orderly
  have hheld : ∃ c, s.context.graph.Holds c l := by
    rcases Relation.ReflTransGen.cases_tail hl with rfl | ⟨k, -, hk⟩
    · exact h.held
    · exact ⟨k, hk⟩
  refine ⟨hheld, ?_⟩
  -- Storage of a variable would be among the regions.
  obtain ⟨k, hk⟩ := hheld
  by_contra hslot
  have hslotted := (hs.fresh.inv.occurs ⟨k, .inr hk⟩).slotted ((Bool.not_eq_false _).mp hslot)
  refine h.rootless l (Outlives.mem_rootsOf_iff.2 ⟨hl, ?_⟩)
  rw [hslotted]
  exact ⟨rfl, rfl, rfl⟩

/-- What a node makes occurs in storings only if the node has its result. -/
theorem Orderly.done (hs : Orderly context p s) (hunrelated : Unrelated X.env.scope context)
    (htask : p.task = none) (hl : Occurs s.context.graph l) (hmade : MadeBy X.env id l) :
    s.flowAt id ≠ none := by
  rcases ((hs.fresh.inv_of_idle htask).occurs hl).temp id hmade with ⟨_, hcur⟩ | hdone | hknown
  · cases hcur
  · exact hdone
  · obtain ⟨horigin, kind, m, hpath⟩ := hmade
    refine absurd hknown (hunrelated.not_occurs ?_ ?_ ?_)
    · rw [hpath]
      exact startsWith_tempPath _ _ _
    · rcases horigin with horigin | horigin <;> simp [Lifetime.isNone, horigin]
    · rintro rfl
      exact tempPath_ne_heap _ _ _ hpath.symm

/-- The lifetime is in the set, or is a copy of one that is. -/
inductive Offspring (sources : Lifetime → Option Lifetime) (D : Lifetime → Prop) :
    Lifetime → Prop
  | here {l : Lifetime} (h : D l) : Offspring sources D l
  | copy {l origin : Lifetime} (h : sources l = some origin)
      (horigin : Offspring sources D origin) : Offspring sources D l

section Lineage

variable (h : Surveyed X function s) (hs : Lineage X base p s sources)

include h hs

/-- A copy holds its source and its own copies only. -/
theorem Lineage.held_of_copy {origin : Lifetime} (hcopy : sources c = some origin)
    (hx : s.context.graph.Holds c x) : x = origin ∨ sources x = some c := by
  obtain ⟨-, horigin, hjoin, hnew, -⟩ := hs.copies c origin hcopy
  cases (hs.edges c x hx).resolve_left fun hknown => hnew ⟨x, .inl hknown⟩ with
  | source h => exact .inl (Option.some.inj (h.symm.trans hcopy))
  | copy h => exact .inr h
  | version => cases horigin
  | operand hmem => exact absurd hmem hjoin
  | stored _ hstores =>
    exact absurd (h.madeBy_of_stores hstores) (not_madeBy_of_localValue horigin)
  | through hassigning hslot =>
    rw [h.isSlot_of_assigning hassigning] at hslot
    cases hslot
  | returned => cases horigin

variable (hunrelated : Unrelated X.env.scope context)

include hunrelated

/-- What secured data leads to gets nothing to hold later on, but copies. -/
theorem Secured.held_later (hsecured : Secured X context base l)
    (hc : base.context.graph.Reaches l c) (hx : s.context.graph.Holds c x) :
    base.context.graph.Holds c x ∨ sources x = some c := by
  obtain ⟨⟨k, hk⟩, hslot⟩ := hsecured.reached hc
  obtain ⟨p₀, hidle, hbase⟩ := hsecured.orderly
  have hoccurs : Occurs base.context.graph c := ⟨k, .inr hk⟩
  rcases hs.edges c x hx with hold | hreason
  · exact .inl hold
  cases hreason with
  | source hsource => exact absurd hoccurs (hs.copies _ _ hsource).2.2.2.1
  | copy hcopy => exact .inr hcopy
  | version => cases hslot
  | operand _ hlate =>
    -- A version at the start of a loop that was entered before is left alone.
    have hdated := (hbase.fresh.inv.dated c hoccurs).2
    have hpos := hbase.numbered.pos
    omega
  | stored hlate hstores =>
    exact absurd hlate (hbase.done hunrelated hidle hoccurs (h.madeBy_of_stores hstores))
  | through hassigning hplace =>
    rw [h.isSlot_of_assigning hassigning] at hplace
    cases hplace
  | returned => exact absurd rfl (hbase.offHeap.inv.graph k _ hk).2

theorem Secured.isSlot_eq_false (hsecured : Secured X context base x)
    (hl : s.context.graph.Reaches x l) : l.isSlot = false := by
  -- From a copy one only comes back to its source, or to copies of it.
  have hoffspring : Offspring sources (base.context.graph.Reaches x) l := by
    induction hl with
    | refl => exact .here (.refl _ _)
    | tail _ hy ih =>
      cases ih with
      | here hc =>
        rcases hsecured.held_later h hs hunrelated hc hy with hold | hcopy
        · exact .here (hc.tail hold)
        · exact .copy hcopy (.here hc)
      | copy hcopy hsource =>
        rcases hs.held_of_copy h hcopy hy with rfl | hback
        · exact hsource
        · exact .copy hback (.copy hcopy hsource)
  cases hoffspring with
  | here hl => exact (hsecured.reached hl).2
  -- Copies are versions of variables.
  | copy hcopy => simp [Lifetime.isSlot, (hs.copies _ _ hcopy).2.1]

end Lineage

/-! ## What memory is given -/

theorem Yields.earlier (hgrows : Grows s s') (hflow : s.flowAt value ≠ none)
    (h : Yields X.env s' value x) : Yields X.env s value x := by
  obtain ⟨flow, ty, fields, field, extent, hflow', hrest⟩ := h
  obtain ⟨found, hfound⟩ := Option.ne_none_iff_exists'.1 hflow
  cases (hgrows.recorded _ _ hfound).symm.trans hflow'
  exact ⟨flow, ty, fields, field, extent, hfound, hrest⟩

theorem Fills.later {logged logged' : Nat} (h : Fills X.env logged s id value)
    (hgrows : Grows s s') (hle : logged' ≤ logged) : Fills X.env logged' s' id value := by
  refine ⟨hgrows.recorded_ne_none h.1, fun x hx => ?_⟩
  obtain ⟨⟨write, hwrite, hrest⟩, hholds⟩ := h.2 x (hx.earlier hgrows h.1)
  refine ⟨⟨write, ?_, hrest⟩, fun hne => hgrows.graph _ _ (hholds hne)⟩
  exact List.drop_subset_drop_left _ hle ((hgrows.heapWrites.drop _).subset hwrite)

/-- The node at work began after a state in which none was. -/
theorem Steps.logged_since (h : Steps X p s p' s') (htask : p.task = none) :
    ∀ task, p'.task = some task →
      s.context.heapWrites.length ≤ task.since.heapWrites.length := by
  intro task hwork
  induction h generalizing task with
  | refl => simp [htask] at hwork
  | step hsteps hstep ih =>
    cases hstep with
    | begin task _ hsince =>
      cases hwork
      rw [hsince]
      exact hsteps.grows.heapWrites.length_le
    | note | region | expose | store | returned | parameter => exact ih htask task hwork
    | declared | plain | rebound | hidden | through | skip =>
      cases hwork
      have hold := ih htask _ rfl
      exact hold
    | record | entered => cases hwork
  | within _ _ _ _ htask' | looped _ _ _ htask' => simp [htask'] at hwork
  | merged => cases hwork

section New

variable (hnode : X.env.node id = .ok node) (hexpr : node.expr = .new (some value))

include hnode hexpr

/-- A node that allocates gets its result when the memory has got its data. -/
theorem Step.fills (h : Step X p s p' s') (hbefore : s.flowAt id = none)
    (hafter : s'.flowAt id ≠ none) : ∃ task : Task X, p.task = some task ∧ p'.task = none ∧
      Fills X.env task.since.heapWrites.length s' id value ∧ Cleared X.env s' value := by
  have hgrows := h.grows
  cases h with
  | @record task _ _ _ _ _ _ hrun _ hfills =>
    obtain ⟨-, -, -, hflow⟩ := runs_record hrun
    have hid : task.id = id := by
      by_contra hne
      rw [hflow] at hafter
      simp [Ne.symm hne, hbefore] at hafter
    subst hid
    cases task.found.symm.trans hnode
    obtain ⟨hfills, hcleared⟩ := hfills value hexpr
    exact ⟨task, rfl, rfl, hfills.later hgrows (Nat.le_refl _),
      fun hcheck x hx => hcleared hcheck x (hx.earlier hgrows hfills.1)⟩
  | parameter _ _ _ hrun =>
    exact absurd ((frame_declareParameterMember hrun).1 id ▸ hbefore) hafter
  | _ => exact absurd hbefore hafter

theorem Steps.fills (h : Steps X p s p' s') (htask : p.task = none) (hbefore : s.flowAt id = none)
    (hafter : s'.flowAt id ≠ none) : Fills X.env s.context.heapWrites.length s' id value := by
  induction h with
  | refl => exact absurd hbefore hafter
  | @step _ _ _ _ s₁ _ hsteps hstep ih =>
    by_cases hmid : s₁.flowAt id = none
    · obtain ⟨task, hwork, -, hfills, -⟩ := hstep.fills hnode hexpr hmid hafter
      exact hfills.later (Grows.refl _) (hsteps.logged_since htask task hwork)
    · exact (ih htask hbefore hmid).later hstep.grows (Nat.le_refl _)
  | @within _ _ _ _ s₁ _ _ _ hsteps hidle _ hinner _ _ ih ih' =>
    by_cases hmid : s₁.flowAt id = none
    · exact (ih' hidle hmid hafter).later (Grows.frame _ _) hsteps.grows.heapWrites.length_le
    · exact (ih htask hbefore hmid).later
        ((Grows.frame _ _).trans (hinner.grows.trans (Grows.frame _ _))) (Nat.le_refl _)
  | merged _ _ hjoining ih => exact (ih htask hbefore hafter).later hjoining.grows (Nat.le_refl _)
  | @looped _ _ _ _ s₁ _ _ hsteps hidle hbody _ hback _ ih ih' =>
    obtain ⟨graph, rfl⟩ := hback.exists_graph
    by_cases hmid : s₁.flowAt id = none
    · exact (ih' hidle hmid hafter).later hback.grows hsteps.grows.heapWrites.length_le
    · exact (ih htask hbefore hmid).later (hbody.grows.trans hback.grows) (Nat.le_refl _)

end New

/-- The data that the node has put into memory was secured, and what was stored since has a
reason. -/
def SealedAt (context : Context) (p : Progress X) (s : State) (id value : NodeId) : Prop :=
  s.flowAt value ≠ none ∧ ∀ x, Yields X.env s value x → x ≠ X.env.allocation id →
    ∃ base, Secured X context base x ∧ ∃ sources, Lineage X base p s sources

/-- This is so for all memory that has been allocated. -/
def AllSealed (context : Context) (p : Progress X) (s : State) : Prop :=
  ∀ id node value, X.env.node id = .ok node → node.expr = .new (some value) →
    s.flowAt id ≠ none → SealedAt context p s id value

theorem AllSealed.later (h : AllSealed context p s) (hgrows : Grows s s')
    (hlineage : ∀ base, (∃ sources, Lineage X base p s sources) →
      ∃ sources, Lineage X base p' s' sources)
    (hnew : ∀ id node value, X.env.node id = .ok node → node.expr = .new (some value) →
      s.flowAt id = none → s'.flowAt id ≠ none → SealedAt context p' s' id value) :
    AllSealed context p' s' := by
  intro id node value hnode hexpr hflow
  by_cases hbefore : s.flowAt id = none
  · exact hnew id node value hnode hexpr hbefore hflow
  · obtain ⟨hvalue, hdata⟩ := h id node value hnode hexpr hbefore
    refine ⟨hgrows.recorded_ne_none hvalue, fun x hx hne => ?_⟩
    obtain ⟨base, hsecured, hx⟩ := hdata x (hx.earlier hgrows hvalue) hne
    exact ⟨base, hsecured, hlineage base hx⟩

/-- Where the stores to the heap are checked, all that memory is given is secured. -/
theorem Steps.allSealed (hsound : X.Sound function) (hunrelated : Unrelated X.env.scope context)
    (hcheck : X.env.options.checkHeapStores = true) (hsteps : Steps X p s p' s')
    (hs : Orderly context p s) (htask : p.task = none) (hall : AllSealed context p s) :
    AllSealed context p' s' := by
  have hlineage := lasts_lineage hsound hunrelated
  induction hsteps with
  | refl => exact hall
  | step hsteps hstep ih =>
    -- What is new in memory has just passed the check of the allocation.
    have hs₁ := lasts_orderly.steps hsteps hs
    refine (ih hs htask hall).later hstep.grows
      (fun base hx => (hlineage base).step hstep hs₁ hx)
      fun id node value hnode hexpr hbefore hafter => ?_
    obtain ⟨_, -, hidle, hfills, hcleared⟩ := hstep.fills hnode hexpr hbefore hafter
    refine ⟨hfills.1, fun x hx hne => ⟨_, ⟨⟨_, hidle, ?_⟩, ⟨_, (hfills.2 x hx).2 hne⟩,
      hcleared hcheck x hx⟩, _, .start _ _⟩⟩
    exact lasts_orderly.step hstep trivial hs₁
  | within hsteps hidle henter _ htask' hframe ih ih' =>
    have hs₁ := lasts_orderly.enter hidle henter (lasts_orderly.steps hsteps hs)
    refine (ih' hs₁ hidle ?_).later (Grows.frame _ _)
      (fun _ => .imp fun _ hx => hx.of_graph_eq (Grows.frame _ _) (advances_refl _ _) rfl rfl)
      fun _ _ _ _ _ hbefore hafter => absurd hbefore hafter
    exact (ih hs htask hall).later (Grows.frame _ _)
      (fun base hx => (hlineage base).enter hidle henter hx)
      fun _ _ _ _ _ hbefore hafter => absurd hbefore hafter
  | merged hsteps hidle hjoining ih =>
    exact (ih hs htask hall).later hjoining.grows
      (fun _ => .imp fun _ => hjoining.lineage hidle (lasts_orderly.steps hsteps hs))
      fun _ _ _ _ _ hbefore hafter => absurd hbefore hafter
  | looped hsteps hidle hbody htask' hback hharmless ih ih' =>
    have hs₁ := lasts_orderly.steps hsteps hs
    have hloop := (Steps.refl _ _).looped hidle hbody htask' hback hharmless
    refine (ih hs htask hall).later hloop.grows
      (fun base hx => ((lasts_orderly.and (hlineage base)).steps hloop ⟨hs₁, hx⟩).2)
      fun id node value hnode hexpr hbefore hafter => ?_
    -- The write was logged in the loop, so that it was checked at its end.
    have hfills := hloop.fills hnode hexpr hidle hbefore hafter
    refine ⟨hfills.1, fun x hx hne => ?_⟩
    obtain ⟨⟨write, hwrite, hcontainer, rfl⟩, hholds⟩ := hfills.2 x hx
    exact ⟨_, ⟨⟨_, htask', lasts_orderly.steps hloop hs₁⟩, ⟨_, hholds hne⟩,
      hharmless hcheck write hwrite (by rw [hcontainer]; rfl)⟩, _, .start _ _⟩

end Flow
end Regions
