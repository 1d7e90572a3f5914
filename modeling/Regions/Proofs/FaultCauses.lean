import Regions.Proofs.Extents
import Regions.Proofs.Visibility

/-!
# What makes the analysis of a well-formed body fail

A body is well-formed if it is a tree in the order of evaluation whose declarations are statements
of blocks, whose jumps are inside loops, and whose types, literals and places fit. The analysis of
such a body finds an answer to each of its questions, with two exceptions: the storage that an
assignment is to bind anew may have gone out of sight with a block in the target, and a place behind
a reference may have been resolved to data that has no storage.

* `Held`, `Analysed.held`: nodes that declare nothing bring no storage into sight;
* `Owner.WellFormed`, `Owner.Trips`: well-formed bodies, and the two faults that are left;
* `guarded`: the analysis is watched for the variables in sight, and for the loops around a node;
* `Faulty.trips`: each cause of a fault but two is out of the question;
* `analyze_of_wellFormed`: the theorem about programs.
-/

namespace Regions

variable {extent : Extent} {fault : Fault}

namespace Flow

variable {X : Setting} {p p' : Progress X} {s s₁ s' : State} {S : NodeId → Prop}
  {V : Path → Prop}

/-! ## Storage that stays in sight -/

/-- Bindings are only those of some paths, and so are the slots in the results of some nodes. -/
structure Held (S : NodeId → Prop) (V : Path → Prop) (s : State) : Prop where
  bindings : s.frame.All fun path _ => V path
  results : s.Results fun id _ extent => S id →
    (extent.value.isSlot = true → V extent.value.path) ∧
    (extent.slot.isSlot = true → V extent.slot.path)

namespace Held

theorem of_eq (h : Held S V s) (hframe : s'.frame = s.frame)
    (hflow : ∀ id, s'.flowAt id = s.flowAt id) : Held S V s' :=
  ⟨hframe ▸ h.bindings, h.results.of_flowAt_eq hflow⟩

theorem rebind (h : Held S V s) {path : Path} (hframe : s.frame.rebind path extent = .ok s'.frame)
    (hflow : ∀ id, s'.flowAt id = s.flowAt id) : Held S V s' :=
  ⟨h.bindings.rebindVisible hframe, h.results.of_flowAt_eq hflow⟩

/-- The slots in a result are those of operands, or were looked up. -/
theorem record (h : Held S V s) (hcoherent : Coherent s) {task : Task X} (hclosed : X.env.Closes S)
    (htask : S task.id) {bundle : Bundle} {escaping : PathSet}
    (hresult : Result X.env s task.id task.node.ty task.position task.node.expr bundle)
    (hrun : Runs (Flow.record task.id bundle escaping) s () s') : Held S V s' := by
  obtain ⟨-, -, hframe, -⟩ := runs_record hrun
  refine ⟨hframe ▸ h.bindings, h.results.record hrun fun m extent hm _ => ?_⟩
  refine hresult.inherits (P := fun l => l.isSlot = true → V l.path) (fun l hl hslot => ?_)
    (fun path extent hlookup => ?_)
      (fun child hchild flow hflow m extent hextent => h.results _ _ hflow _ _ hextent
      (hclosed task.id task.node htask task.found child hchild)) hm
  · simp [hl.isSlot] at hslot
  · have hanchored := hcoherent.bindings.lookup hlookup
    refine ⟨fun hslot => ?_, fun _ => ?_⟩
    · simp [hanchored.isSlot_value] at hslot
    · rw [hanchored.slot]
      exact h.bindings.lookup hlookup

end Held

/-- The node at work is none of those in `S`. -/
def Progress.Strays (p : Progress X) (S : NodeId → Prop) : Prop :=
  ∃ task, p.task = some task ∧ ¬ S task.id

theorem Progress.not_strays (h : p.task = none) : ¬ p.Strays S := by
  rintro ⟨task, htask, -⟩
  cases h.symm.trans htask

theorem Progress.strays_iff {task : Task X} {joins : List Lifetime} :
    Progress.Strays ⟨some task, joins⟩ S ↔ ¬ S task.id := by
  refine ⟨?_, fun h => ⟨task, rfl, h⟩⟩
  rintro ⟨_, hsame, h⟩
  cases hsame
  exact h

theorem Progress.Strays.did {task : Task X} {joins : List Lifetime}
    (h : Progress.Strays ⟨some task, joins⟩ S) (path : Path) :
    Progress.Strays ⟨some (task.did path), joins⟩ S := by
  have htask := strays_iff.1 h
  exact strays_iff.2 htask

/-- What gives results to no other nodes in the end has not done so on the way. -/
theorem RecordsOnly.split (h : RecordsOnly S s s') (hbefore : Grows s s₁)
    (hafter : Grows s₁ s') : RecordsOnly S s s₁ ∧ RecordsOnly S s₁ s' := by
  have hsame : RecordsOnly S s s₁ := by
    intro id hid
    cases hfirst : s.flowAt id with
    | some flow => exact hbefore.recorded id flow hfirst
    | none =>
      by_contra hsome
      obtain ⟨flow, hflow⟩ := Option.ne_none_iff_exists'.1 hsome
      cases hfirst.symm.trans ((h id hid).symm.trans (hafter.recorded id flow hflow))
  exact ⟨hsame, fun id hid => (h id hid).trans (hsame id hid).symm⟩

section Sight

variable (hclosed : X.env.Closes S)
  (hplain : ∀ id node x value, S id → X.env.node id = .ok node →
    node.expr ≠ .declaration x value)
  (hparameters : ∀ parameter ∈ X.parameters, ∀ fields,
    X.env.fields parameter.ty = .ok fields →
    ∀ field ∈ fields, V (parameter.path ++ field.path))

include hclosed hplain hparameters

/-- Where only nodes in `S` get results, and these declare nothing, no other paths come into
sight. -/
theorem Step.held (h : Step X p s p' s') (hcoherent : Coherent s) (hrecords : RecordsOnly S s s')
    (hs : p.Strays S ∨ Held S V s) : p'.Strays S ∨ Held S V s' := by
  cases h with
  | begin task =>
    have hs := hs.resolve_left (Progress.not_strays rfl)
    by_cases htask : S task.id
    · exact .inr hs
    · exact .inl (Progress.strays_iff.2 htask)
  | note | region | expose | store | returned => exact hs.imp_right (·.of_eq rfl fun _ => rfl)
  | skip | through | hidden => exact hs.imp (·.did _) (·.of_eq rfl fun _ => rfl)
  | declared hdeclaring | plain hdeclaring =>
    obtain ⟨_, _, _, _, hexpr, -⟩ := hdeclaring.operands
    exact .inl (Progress.strays_iff.2 fun htask => hplain _ _ _ _ htask (Task.found _) hexpr)
  | rebound _ _ _ hframe => exact hs.imp (·.did _) (·.rebind hframe fun _ => rfl)
  | @record task _ _ _ _ _ hresult hrun =>
    obtain ⟨hnone, -, -, hflow⟩ := runs_record hrun
    -- The node gets a result now, so it is in `S`.
    have htask : S task.id := by
      by_contra hstrays
      have hsame := hrecords task.id hstrays
      simp [hflow, hnone] at hsame
    exact .inr ((hs.resolve_left fun h => Progress.strays_iff.1 h htask).record hcoherent hclosed
      htask hresult hrun)
  | parameter hparameter hfields hfield hrun =>
    have hs := hs.resolve_left (Progress.not_strays rfl)
    obtain ⟨hflow, extent, hframe, -⟩ := frame_declareParameterMember hrun
    refine .inr ⟨?_, hs.results.of_flowAt_eq hflow⟩
    rw [hframe]
    exact hs.bindings.declare (hparameters _ hparameter _ hfields _ hfield)
  | entered _ _ _ _ _ _ _ hframe =>
    exact .inr ((hs.resolve_left (Progress.not_strays rfl)).rebind hframe fun _ => rfl)

theorem Steps.held (h : Steps X p s p' s') (hcoherent : Coherent s) (hrecords : RecordsOnly S s s')
    (hs : p.Strays S ∨ Held S V s) : p'.Strays S ∨ Held S V s' := by
  induction h with
  | refl => exact hs
  | step h hstep ih =>
    obtain ⟨hbefore, hafter⟩ := hrecords.split h.grows hstep.grows
    exact hstep.held hclosed hplain hparameters (h.coherent hcoherent) hafter
      (ih hcoherent hbefore hs)
  | within h htask henter hinner htask' hframe ih ih' =>
    obtain ⟨hbefore, hafter⟩ :=
      hrecords.split h.grows ((Grows.frame _ _).trans (hinner.grows.trans (Grows.frame _ _)))
    have houter := (ih hcoherent hbefore hs).resolve_left (Progress.not_strays htask)
    have hend := (ih' ((h.coherent hcoherent).enter henter) hafter
      (.inr ⟨houter.bindings.enter henter, houter.results⟩)).resolve_left
        (Progress.not_strays htask')
    exact .inr ⟨houter.bindings.absorb hend.bindings hframe, hend.results⟩
  | merged h htask hjoining ih =>
    obtain ⟨hbefore, -⟩ := hrecords.split h.grows hjoining.grows
    have hheld := (ih hcoherent hbefore hs).resolve_left (Progress.not_strays htask)
    exact .inr (hheld.rebind hjoining.rebind fun _ => rfl)
  | looped h _ hbody _ hback _ ih ih' =>
    obtain ⟨hbefore, hrest⟩ := hrecords.split h.grows (hbody.grows.trans hback.grows)
    obtain ⟨hinner, -⟩ := hrest.split hbody.grows hback.grows
    obtain ⟨graph, rfl⟩ := hback.exists_graph
    exact (ih' (h.coherent hcoherent) hinner (ih hcoherent hbefore hs)).imp_right
      (·.of_eq rfl fun _ => rfl)

/-- What the analysis of a node that declares nothing names was in sight before. -/
theorem Analysed.held {id : NodeId} (h : Analysed X id s s') (hid : S id) (hcoherent : Coherent s)
    (hs : Held S V s) : Held S V s' := by
  obtain ⟨p, p', htask, htask', hsteps⟩ := h.steps
  exact (hsteps.held hclosed hplain hparameters hcoherent (h.records S hclosed hid)
    (.inr hs)).resolve_left (Progress.not_strays htask')

end Sight

theorem frame_all_visible (frame : Frame) :
    frame.All fun path _ => ∃ extent, frame.lookup? path = some extent := by
  intro scope hscope path extent hbinding
  refine Option.isSome_iff_exists.1 (List.findSome?_isSome_iff.2 ⟨scope, hscope, ?_⟩)
  rw [hbinding]
  rfl

/-! ## How many results there are -/

theorem size_of_runs_record {id : NodeId} {bundle : Bundle} {escaping : PathSet}
    (h : Runs (Flow.record id bundle escaping) s () s') : s'.recorded.size = s.recorded.size := by
  simp only [Flow.record, runs_bind_iff, runs_flowOf?_iff, runs_ite_iff, runs_get_iff,
    runs_lift_iff, runs_modify_iff, runs_throw_iff] at h
  obtain ⟨_, _, ⟨-, rfl⟩, ⟨_, _, _, hfalse, _⟩
    | ⟨-, _, _, ⟨rfl, rfl⟩, recorded, _, ⟨hset, rfl⟩, rfl⟩⟩ := h
  · exact hfalse.elim
  · unfold Arena.set at hset
    split at hset
    · cases hset
      exact Array.size_setIfInBounds
    · cases hset

theorem Step.size_eq (h : Step X p s p' s') : s'.recorded.size = s.recorded.size := by
  cases h with
  | record _ hrun => exact size_of_runs_record hrun
  | parameter _ _ _ hrun =>
    obtain ⟨-, rfl⟩ | ⟨-, rfl⟩ := runs_declareParameterMember hrun <;> rfl
  | _ => rfl

theorem lasts_size_eq (n : Nat) : Lasts X (fun _ _ => True) fun _ s => s.recorded.size = n where
  step hstep _ hs := hstep.size_eq.trans hs
  enter _ _ hs := hs
  leave _ _ _ _ _ hs := hs
  join _ _ _ _ hs := hs
  flowBack _ _ _ _ _ _ _ hs := hs

end Flow

/-! ## Well-formed bodies -/

variable {nodes : Arena Node} {id inner outer target : NodeId} {node : Node}

/-- A node is in the tree of another one, and is not its root. -/
def Encloses (nodes : Arena Node) (outer inner : NodeId) : Prop :=
  ∃ first, Spans nodes first [outer] (outer.index + 1) ∧ first ≤ inner.index ∧
    inner.index < outer.index

/-- Expressions that go through a reference. -/
def Expr.isAccess : Expr → Bool
  | .dereference _ | .index _ _ => true
  | _ => false

/-- A node that may be asked for its storage: a chain of member accesses that ends with a variable,
or with what is behind a reference. -/
inductive IsPlace (nodes : Arena Node) : NodeId → Prop
  | var {id : NodeId} {node : Node} {x : Path} (hnode : nodes.get? id = some node)
      (hexpr : node.expr = .var x) : IsPlace nodes id
  | access {id : NodeId} {node : Node} (hnode : nodes.get? id = some node)
      (hexpr : node.expr.isAccess = true) : IsPlace nodes id
  | member {id target : NodeId} {node : Node} {name : String} (hnode : nodes.get? id = some node)
      (hexpr : node.expr = .memberAccess target name) (h : IsPlace nodes target) : IsPlace nodes id

/-- The nodes make up a tree in the order of evaluation, with declarations in blocks and jumps in
loops. Types have layouts, literals fit to them, and places have storage. -/
structure Owner.WellFormed (decls : Declarations) (owner : Owner) (function : Function) : Prop where
  tree : Spans owner.nodes 0 [function.body] owner.nodes.size
  drafted : ∃ before signature body,
    Function.ofTerm before owner.id signature body = .ok owner ∧
    DeclaresInBlocks owner.nodes (body.openings 0)
  typed : Flow.WellTyped decls owner.nodes
  parameters : ∀ parameter ∈ function.parameters, decls.Proper parameter.ty
  places : ∀ id node target, owner.nodes.get? id = some node →
    (node.expr = .addressOf target ∨ ∃ value, node.expr = .assignment target value) →
    IsPlace owner.nodes target
  addressed : ∀ id node target targetNode, owner.nodes.get? id = some node →
    node.expr = .addressOf target →
    owner.nodes.get? target = some targetNode → targetNode.ty.isVoid = false
  jumps : ∀ id node, owner.nodes.get? id = some node → node.expr = .breakLoop ∨
    node.expr = .continueLoop →
    ∃ loop loopNode condition body, owner.nodes.get? loop = some loopNode ∧
      loopNode.expr = .loop condition body ∧ Encloses owner.nodes loop id

/-- Some assignment has a declaration inside its target. -/
def DeclaresInTarget (nodes : Arena Node) : Prop :=
  ∃ id node target value site siteNode x initial, nodes.get? id = some node ∧
    node.expr = .assignment target value ∧ nodes.get? site = some siteNode ∧
    siteNode.expr = .declaration x initial ∧ Encloses nodes target site

/-- The address is taken of a place that is behind a reference. -/
def AddressedBehind (nodes : Arena Node) (target : NodeId) : Prop :=
  (∃ id node, nodes.get? id = some node ∧ node.expr = .addressOf target) ∧
    ∀ x m, ¬ Names nodes target x m

/-- The faults that the analysis of a well-formed body may still end with. -/
inductive Owner.Trips (owner : Owner) (function : Function) (options : Flow.Options) :
    Fault → Prop
  | hidden (path : Path) (h : DeclaresInTarget owner.nodes) : owner.Trips function options
      (.hiddenBinding path)
  | storage (id : NodeId) (h : AddressedBehind owner.nodes id)
      (hblurred : options.resolveAliases = true ∨ ¬ Unblurred function.parameters owner.nodes) :
      owner.Trips function options (.noStorage id)

namespace Flow

/-! ## What is watched -/

variable {env : Env} {parameters : List Parameter}

/-- An analysis that is watched for what is in sight, and for the loops that it is inside of. -/
def guarded (env : Env) (parameters : List Parameter) : Watch where
  halts := fun _ => True
  arrives := fun position id s => (sighted env parameters).arrives position id s ∧
    ∀ loop node condition body, env.owner.nodes.get? loop = some node →
    node.expr = .loop condition body → Encloses env.owner.nodes loop id → s.frame.inLoop = true
  deep := False

theorem fresh_guarded (env : Env) (parameters : List Parameter) : (guarded env parameters).Fresh :=
  fun position id s h => fresh_sighted env parameters position id s h.1

/-- A loop around an operand is around the node, or is the node. -/
theorem Scopes.encloses_child (h : Scopes env parameters)
    (hnode : env.owner.nodes.get? id = some node) (hchild : inner ∈ node.expr.children)
    (hencloses : Encloses env.owner.nodes outer inner) :
    outer = id ∨ Encloses env.owner.nodes outer id := by
  obtain ⟨first, htree, hfirst, hinner⟩ := hencloses
  obtain ⟨begin, -, hbelow⟩ := h.tree_of hnode
  have hlt := h.ordered hnode hchild
  rcases Nat.lt_trichotomy outer.index id.index with hbefore | heq | hafter
  · have := hbelow.sibling hchild hinner hbefore htree
    omega
  · cases outer
    cases id
    exact .inl (congrArg NodeId.mk heq)
  · exact .inr ⟨first, htree, by omega, hafter⟩

theorem guides_guarded (hscopes : Scopes X.env X.parameters) :
    (guarded X.env X.parameters).Guides X := by
  intro position id node hvisits hnode before use after s s' huses harrives honward
  have hsighted : Onward X.env (sighted X.env X.parameters) node before s s' :=
    { honward with shows := fun _ => honward.shows (fresh_guarded X.env X.parameters) }
  refine ⟨guides_sighted hscopes position id node hvisits hnode before use after s s' huses
    harrives.1 hsighted, ?_⟩
  intro loop loopNode condition body hloop hexpr hencloses
  have huse : use ∈ node.expr.uses position := by simp [huses]
  have hchild := Expr.mem_children_of_mem_uses huse
  rcases hscopes.encloses_child (env_node_eq_ok_iff.1 hnode) hchild hencloses with rfl | houter
  · cases (env_node_eq_ok_iff.1 hnode).symm.trans hloop
    exact honward.looping condition body hexpr
  · exact honward.inLoop (harrives.2 loop loopNode condition body hloop hexpr houter)

/-! ## Questions about well-formed bodies -/

section Bodies

variable {decls : Declarations} {options : Options} {owner : Owner} {function : Function}
  {position : Position} (hwell : owner.WellFormed decls function)

include hwell

theorem index_lt_of_traverses
    (h : Traverses (.ofFunction decls options owner function) [function.body] position id) :
    id.index < owner.nodes.size := by
  induction h with
  | root hroot =>
    obtain rfl := List.mem_singleton.1 hroot
    exact (hwell.tree.bounds List.mem_cons_self).2
  | use _ hnode huse ih =>
    have hlt := (hwell.tree.child (Nat.zero_le _) ih (env_node_eq_ok_iff.1 hnode)
      (Expr.mem_children_of_mem_uses huse)).2
    omega

theorem exists_node_of_lt (h : id.index < owner.nodes.size) :
    ∃ node, (Env.ofFunction decls options owner function).node id = .ok node := by
  obtain ⟨node, hnode, -⟩ := hwell.tree.grounded id ⟨Nat.zero_le _, h⟩
  exact ⟨node, env_node_eq_ok_iff.2 hnode⟩

theorem laidOut_of_wellFormed : LaidOut decls owner.nodes where
  toWellTyped := hwell.typed
  ordered := fun _ _ hnode _ hchild =>
      (hwell.tree.child (Nat.zero_le _) (index_lt_size hnode) hnode hchild).2

theorem ordered_of_wellFormed : (Env.ofFunction decls options owner function).Ordered :=
  fun id node hnode => (laidOut_of_wellFormed hwell).ordered id node (env_node_eq_ok_iff.1 hnode)

theorem acyclic_of_wellFormed : (Setting.ofOwner decls options owner function).Acyclic := by
  refine ⟨fun id => id.index < owner.nodes.size, NodeId.index,
    fun _ _ => index_lt_of_traverses hwell, ?_⟩
  intro id node hid hnode child hchild
  have hlt := ordered_of_wellFormed hwell id node hnode child hchild
  exact ⟨Nat.lt_trans hlt hid, hlt⟩

/-- Nodes that are asked for their storage have some. -/
theorem isPlace_of_traverses
    (h : Traverses (.ofFunction decls options owner function) [function.body] .place id) :
    IsPlace owner.nodes id := by
  generalize hposition : Position.place = position at h
  induction h with
  | root => cases hposition
  | @use position id node operand h hnode huse ih =>
    have hfound := env_node_eq_ok_iff.1 hnode
    obtain ⟨kind, child⟩ := operand
    obtain rfl : .place = kind := hposition
    cases position <;> cases hexpr : node.expr <;> simp [hexpr, Expr.uses] at huse <;> subst huse
    · exact hwell.places id node _ hfound (.inl hexpr)
    · exact hwell.places id node _ hfound (.inr ⟨_, hexpr⟩)
    · -- A member of a place: the chain goes on.
      cases ih rfl with
      | var hnode' hexpr' | access hnode' hexpr' =>
        cases hfound.symm.trans hnode'
        simp [hexpr, Expr.isAccess] at hexpr'
      | member hnode' hexpr' h' =>
        cases hfound.symm.trans hnode'
        cases hexpr.symm.trans hexpr'
        exact h'

/-- The rules of a well-formed body ask no question without an answer. -/
theorem not_question (task : Task (.ofOwner decls options owner function)) :
    ¬ Question (.ofFunction decls options owner function) task.node fault := by
  have hlt := index_lt_of_traverses hwell task.visited
  have hnode := env_node_eq_ok_iff.1 task.found
  have hproper := hwell.typed.proper task.id task.node hnode
  have hgrounded := hwell.tree.grounded
  have hchild : ∀ child ∈ task.node.expr.children, 0 ≤ child.index ∧
      child.index < owner.nodes.size := by
    intro child hchild
    have := ordered_of_wellFormed hwell task.id task.node task.found child hchild
    omega
  have hoperand : ∀ {child : NodeId} {ty : Ty}, child ∈ task.node.expr.children →
      (Env.ofFunction decls options owner function).typeOf child = .ok ty → decls.Proper ty := by
    intro child ty hmem hty
    obtain ⟨node, hfound⟩ := exists_node_of_lt hwell (hchild child hmem).2
    cases (Env.typeOf_of_node hfound).symm.trans hty
    exact hwell.typed.proper child node (env_node_eq_ok_iff.1 hfound)
  intro h
  cases h with
  | members h =>
    obtain ⟨members, hmembers⟩ := hproper.exists_members
    cases h.symm.trans hmembers
  | fields h =>
    obtain ⟨fields, hfields⟩ := hproper.exists_fields
    cases h.symm.trans hfields
  | tracked h =>
    obtain ⟨tracked, htracked⟩ := hproper.exists_tracked
    cases h.symm.trans htracked
  | operand hmem h =>
    obtain ⟨node, hfound⟩ := exists_node_of_lt hwell (hchild _ hmem).2
    cases h.symm.trans hfound
  | operandFields hmem hty h =>
    obtain ⟨fields, hfields⟩ := (hoperand hmem hty).exists_fields
    cases h.symm.trans hfields
  | operandTracked hmem hty h =>
    obtain ⟨tracked, htracked⟩ := (hoperand hmem hty).exists_tracked
    cases h.symm.trans htracked
  | @place target value hexpr h =>
    have htarget := hchild target (by simp [hexpr, Expr.children])
    obtain ⟨path?, hpath⟩ := hgrounded.exists_placePath? htarget (Nat.lt_succ_of_lt htarget.2)
    cases h.symm.trans hpath
  | @effects condition body hexpr h =>
    obtain ⟨effects, heffects⟩ :=
      hgrounded.exists_loopEffects (fun id hid => Nat.lt_succ_of_lt hid.2)
      (hchild condition (by simp [hexpr, Expr.children]))
        (hchild body (by simp [hexpr, Expr.children]))
    cases h.symm.trans heffects

/-- Along a tree in the order of evaluation, a walk comes to each node once. -/
theorem exists_nodup_walk :
    ∃ ids, owner.walkFrom owner.depth function.body = .ok ids ∧ ids.Nodup := by
  obtain ⟨parts, hparts, hnodup, -⟩ := hwell.tree.exists_walk (Nat.le_succ _)
  obtain ⟨ids, others, hids, hothers, rfl⟩ := mapM_ok_cons_iff.1 hparts
  exact ⟨ids, hids, (List.nodup_append.1 (List.flatten_cons ▸ hnodup)).1⟩

theorem unique_of_wellFormed {position' : Position}
    (h : Traverses (.ofFunction decls options owner function) [function.body] position id)
    (h' : Traverses (.ofFunction decls options owner function) [function.body] position' id) :
    position = position' := by
  obtain ⟨ids, hwalk, hnodup⟩ := exists_nodup_walk hwell
  exact h.position_eq h' hwalk hnodup

variable {p : Progress (.ofOwner decls options owner function)} {context : Context}
  (hinside : Inside (.ofOwner decls options owner function) ⟨none, []⟩
    (.start context owner.nodes.size) p s)
  (task : Task (.ofOwner decls options owner function))

include hinside

/-- A place without storage is behind a reference. -/
theorem addressedBehind_of_isNone (hexpr : task.node.expr = .addressOf target) {flow : NodeFlow}
    (hflow : s.flowAt target = some flow) (hwhole : flow.bundle.whole? = some extent)
    (hnone : extent.slot.isNone = true) :
    (Setting.ofOwner decls options owner function).visits .place target ∧
    AddressedBehind owner.nodes target := by
  have hnode : owner.nodes.get? task.id = some task.node := env_node_eq_ok_iff.1 task.found
  have hclosed : (Setting.ofOwner decls options owner function).Closed := closed_traverses _ _ _
  have hplace : (Setting.ofOwner decls options owner function).visits .place target := by
    refine hclosed _ _ _ task.visited task.found (.place, target) ?_
    cases hposition : task.position with
    | value => simp [hexpr, Expr.uses]
    | place =>
      -- An address is no place.
      have hplace := isPlace_of_traverses hwell (hposition ▸ task.visited)
      cases hplace with
      | var hnode' hexpr' | access hnode' hexpr' | member hnode' hexpr' =>
        cases hnode.symm.trans hnode'
        simp [hexpr, Expr.isAccess] at hexpr'
  refine ⟨hplace, ⟨task.id, task.node, hnode, hexpr⟩, fun x m hnames => ?_⟩
  have hextents :=
    hinside.flows (fun s task bundle hcoherent hs hresult => hresult.namesExtents hclosed
      (fun _ _ _ => unique_of_wellFormed hwell) hcoherent hs) (coherent_start _ _) (by
        simp [flowAt_start])
    target flow hflow .whole extent hwhole x m hnames
  rcases hextents with hanchors | ⟨-, hvalue⟩
  · rw [hanchors.slot] at hnone
    cases hnone
  · exact hvalue hplace

/-- Where nothing is resolved, every place has storage. -/
theorem isNone_slot_of_place
    (hbuilt : WellBuilt (.ofFunction decls options owner function) function)
    (hoff : options.resolveAliases = false)
    (hplace : (Setting.ofOwner decls options owner function).visits .place target) {flow : NodeFlow}
    (hflow : s.flowAt target = some flow) (hwhole : flow.bundle.whole? = some extent) :
    extent.slot.isNone = false := by
  obtain ⟨-, hexact⟩ := hinside.exactExtents hbuilt hoff (fun _ h => h) (closed_traverses _ _ _)
    (fun _ _ _ => unique_of_wellFormed hwell) (coherent_start _ _) (typedState_start _ _)
      (flowAt_start _ _)
    target flow hflow
  obtain ⟨node, hnode, -⟩ :=
    hwell.tree.grounded target ⟨Nat.zero_le _, index_lt_of_traverses hwell hplace⟩
  obtain ⟨b, hb⟩ := (hwell.typed.proper target node hnode).exists_tracked
  exact (hexact .whole extent hwhole .place node node.ty b trivial hplace
    (env_node_eq_ok_iff.2 hnode) rfl hb).1

omit hinside

/-- Without declarations in its target, an assignment finds the storage that it binds anew. -/
theorem declaresInTarget_of_hidden {s₀ : State} {field : Field} {place new : Extent}
    (hassigning : Assigning s task field place new) (hslot : place.slot.isSlot = true)
    (hstarted : Started
      (guarded (.ofFunction decls options owner function) function.parameters) ⟨none, []⟩
      (.start context owner.nodes.size) s₀ s task) (hvisible : s₀.frame.VisibleIn s.frame)
    (hnone : s.frame.lookup? place.slot.path = none) : DeclaresInTarget owner.nodes := by
  by_contra hplain
  have hnode : owner.nodes.get? task.id = some task.node := env_node_eq_ok_iff.1 task.found
  obtain ⟨⟨p, hreached⟩, ⟨⟨first, hspans, hsight⟩, -⟩, target, value, s₁, hexpr,
    hanalysed, hflow⟩ := hstarted
  obtain ⟨_, _, places, assigned, _, _, hexpr', hplaces, -, -, -, -, hplace, -⟩ :=
    hassigning.operands
  cases hexpr.symm.trans hexpr'
  -- The nodes of the target stand in a row, and none of them has a result yet.
  have htree : Spans owner.nodes first [target] (target.index + 1) := by
    have hchildren := (hspans.root hnode).1
    rw [hexpr] at hchildren
    exact hchildren.head.1
  have hclosed : (Env.ofFunction decls options owner function).Closes
      fun id => first ≤ id.index ∧ id.index < target.index + 1 := by
    intro id node hid hfound child hchild
    have := htree.child hid.1 hid.2 (env_node_eq_ok_iff.1 hfound) hchild
    omega
  have hdeclares : ∀ id node x initial, first ≤ id.index ∧ id.index < target.index + 1 →
      (Env.ofFunction decls options owner function).node id = .ok node →
      node.expr ≠ .declaration x initial := by
    intro id node x initial hid hfound hdeclaration
    have hfound := env_node_eq_ok_iff.1 hfound
    rcases Nat.lt_or_eq_of_le (Nat.le_of_lt_succ hid.2) with hlt | heq
    · exact hplain ⟨task.id, task.node, target, value, id, node, x, initial, hnode, hexpr,
        hfound, hdeclaration, first, htree, hid.1, hlt⟩
    · -- A declaration is no place.
      obtain rfl : id = target := congrArg NodeId.mk heq
      cases hwell.places task.id task.node id hnode (.inr ⟨value, hexpr⟩) with
      | var hnode' hexpr' | access hnode' hexpr' | member hnode' hexpr' =>
        cases hfound.symm.trans hnode'
        simp [hdeclaration, Expr.isAccess] at hexpr'
  have hparameters : ∀ parameter ∈ function.parameters, ∀ fields,
      (Env.ofFunction decls options owner function).fields parameter.ty = .ok fields →
      ∀ field ∈ fields,
        ∃ extent, s₀.frame.lookup? (parameter.path ++ field.path) = some extent := by
    intro parameter hparameter fields hfields field hfield
    obtain ⟨members, hmembers, hpaths⟩ := Declarations.map_path_of_fields hfields
    have hpath : field.path ∈ members.map Prod.fst := hpaths ▸ List.mem_map_of_mem hfield
    obtain ⟨member, hmember, heq⟩ := List.mem_map.1 hpath
    exact heq ▸ hsight.parameters parameter hparameter members hmembers member hmember
  have hcoherent := hreached.coherent (coherent_start _ _)
  have hheld := hanalysed.held hclosed hdeclares hparameters
    (S := fun id => first ≤ id.index ∧ id.index < target.index + 1)
    ⟨(htree.bounds List.mem_cons_self).1, Nat.lt_succ_self _⟩ hcoherent
    ⟨frame_all_visible _, fun id flow hid _ _ _ hS => by simp [hsight.fresh id hS.1] at hid⟩
  obtain ⟨extent, hextent⟩ :=
    hvisible _ ((hheld.results target places (hflow ▸ hplaces) _ _ hplace
    ⟨(htree.bounds List.mem_cons_self).1, Nat.lt_succ_self _⟩).2 hslot)
  cases hnone.symm.trans hextent

include hinside

/-- Of the causes that a fault may have, a well-formed body leaves two. -/
theorem Faulty.trips (htypes : TypedNodes decls owner.nodes)
    (hbuilt : Unblurred function.parameters owner.nodes →
      WellBuilt (.ofFunction decls options owner function) function)
    (hscopes : Scopes (.ofFunction decls options owner function) function.parameters)
    (h : Faulty (.ofOwner decls options owner function)
      (guarded (.ofFunction decls options owner function) function.parameters) ⟨none, []⟩
      (.start context owner.nodes.size) s fault) : owner.Trips function options fault := by
  have hcomplete := hinside.complete htypes hwell.typed (coherent_start _ _) (flowAt_start _ _)
  have hfound : ∀ task : Task (.ofOwner decls options owner function),
      owner.nodes.get? task.id = some task.node :=
    fun task => env_node_eq_ok_iff.1 task.found
  have htyped : ∀ task : Task (.ofOwner decls options owner function),
      task.node.expr.Typed decls owner.nodes task.node.ty := fun task => htypes _ _ (hfound task)
  -- Operands have all the members of their types, and so do members of operands.
  have hwhole : ∀ (task : Task (.ofOwner decls options owner function)) {child : NodeId}
    {flow : NodeFlow} {ty : Ty},
      child ∈ task.node.expr.children → s.flowAt child = some flow →
      (Env.ofFunction decls options owner function).typeOf child = .ok ty →
      flow.bundle.Complete decls ty := by
    intro task child flow ty hchild hflow hty
    have hlt := ordered_of_wellFormed hwell task.id task.node task.found child hchild
    obtain ⟨node, hnode⟩ :=
      exists_node_of_lt hwell (Nat.lt_trans hlt (index_lt_of_traverses hwell task.visited))
    cases (Env.typeOf_of_node hnode).symm.trans hty
    exact hcomplete child flow hflow node hnode
  have hmember : ∀ (task : Task (.ofOwner decls options owner function)) {target : NodeId}
    {name : String} {flow : NodeFlow}, task.node.expr = .memberAccess target name →
      s.flowAt target = some flow →
      (flow.bundle.scopedTo (.single name)).Complete decls task.node.ty ∧
      task.node.ty.isVoid = false := by
    intro task target name flow hexpr hflow
    have htyped := htyped task
    rw [hexpr] at htyped
    obtain ⟨node, hnode, hmember⟩ := htyped
    have hproper := hwell.typed.proper target node hnode
    exact ⟨(hcomplete target flow hflow node (env_node_eq_ok_iff.2 hnode)).scopedTo
      hproper hmember, (hproper.memberType? hmember).2⟩
  cases h with
  | deep h => exact h.elim
  | parameter hparameter h =>
    obtain ⟨fields, hfields⟩ := (hwell.parameters _ hparameter).exists_fields
    cases h.symm.trans hfields
  | node hvisited h =>
    obtain ⟨node, hnode⟩ := exists_node_of_lt hwell (index_lt_of_traverses hwell hvisited)
    cases h.symm.trans hnode
  | range hvisited h =>
    have hlt := index_lt_of_traverses hwell hvisited
    have hle := Arena.get?_eq_none_iff.1 h
    rw [(lasts_size_eq _).inside hinside rfl] at hle
    simp [State.start, Arena.replicate, Arena.size] at hle hlt
    omega
  | question task h => exact absurd h (not_question hwell task)
  | twice task h => exact absurd (acyclic_of_wellFormed hwell) h
  | unseen task hexpr harrives hmembers hpath h =>
    obtain ⟨⟨first, hspans, hsight⟩, -⟩ := harrives
    obtain ⟨member, hmember, rfl⟩ := List.mem_map.1 hpath
    obtain ⟨extent, hextent⟩ :=
      hsight.sees hscopes (hfound task) hspans hexpr _ hmembers member hmember
    cases h.symm.trans hextent
  | @whole task target flow ty hexpr hflow h =>
    have hvoid : ∃ node, owner.nodes.get? target = some node ∧ node.ty.isVoid = false := by
      have htyped := htyped task
      rcases hexpr with hexpr | hexpr | ⟨subscript, hexpr⟩ <;> rw [hexpr] at htyped <;>
        obtain ⟨node, hnode, hty⟩ := htyped
      · exact ⟨node, hnode, hwell.addressed task.id task.node target node
          (hfound task) hexpr hnode⟩
      · exact ⟨node, hnode, by rw [hty]; rfl⟩
      · exact ⟨node, hnode, by rw [hty]; rfl⟩
    obtain ⟨node, hnode, hvoid⟩ := hvoid
    obtain ⟨extent, hextent⟩ :=
      (hcomplete target flow hflow node (env_node_eq_ok_iff.2 hnode)).whole? hvoid
    cases h.symm.trans hextent
  | storage task hexpr hflow hwhole h =>
    obtain ⟨hplace, hbehind⟩ :=
      addressedBehind_of_isNone hwell hinside task hexpr hflow hwhole h
    refine .storage _ hbehind ?_
    by_contra hclear
    obtain ⟨hoff, hunblurred⟩ := not_or.1 hclear
    have hsome := isNone_slot_of_place hwell hinside (hbuilt (not_not.1 hunblurred))
      (Bool.not_eq_true _ ▸ hoff) hplace hflow hwhole
    cases h.symm.trans hsome
  | member task hexpr hflow h =>
    obtain ⟨hscoped, hvoid⟩ := hmember task hexpr hflow
    obtain ⟨extent, hextent⟩ := hscoped.whole? hvoid
    simp [hextent] at h
  | count task hexpr hflow hmembers h =>
    exact absurd
      ((hmember task hexpr hflow).1.size_eq (hwell.typed.proper _ _ (hfound task)) hmembers) h
  | callee task hexpr h =>
    have := htyped task
    rw [hexpr] at this
    exact absurd this h
  | initializer task hexpr hflow hty hfields hfield h =>
    obtain ⟨extent, hextent⟩ :=
      (hwhole task (by simp [hexpr, Expr.children]) hflow hty).get_of_field hfields hfield
    cases h.symm.trans hextent
  | assignment task hexpr hplaces hassigned hty hfields hfield h =>
    have hsame := htyped task
    rw [hexpr] at hsame
    obtain ⟨-, targetNode, valueNode, htarget, hvalue, heq⟩ := hsame
    cases (Env.typeOf_of_node (env_node_eq_ok_iff.2 htarget)).symm.trans hty
    obtain ⟨place, hplace⟩ :=
      (hwhole task (by simp [hexpr, Expr.children]) hplaces hty).get_of_field hfields hfield
    obtain ⟨new, hnew⟩ := (hwhole task (by simp [hexpr, Expr.children]) hassigned
      (heq ▸ Env.typeOf_of_node (env_node_eq_ok_iff.2 hvalue))).get_of_field hfields hfield
    simp [hplace, hnew] at h
  | hidden task hassigning hslot hstarted hvisible h =>
    exact .hidden _ (declaresInTarget_of_hidden hwell task hassigning hslot hstarted hvisible h)
  | outside task hexpr harrives h =>
    obtain ⟨loop, loopNode, condition, body, hloop, hloops, hencloses⟩ :=
      hwell.jumps task.id task.node (hfound task) hexpr
    cases h.symm.trans (harrives.2 loop loopNode condition body hloop hloops hencloses)
  | place task hposition h =>
    cases isPlace_of_traverses hwell (hposition ▸ task.visited) with
    | var hnode hexpr | member hnode hexpr =>
      cases (hfound task).symm.trans hnode
      rw [hexpr] at h
      cases h
    | access hnode hexpr =>
      cases (hfound task).symm.trans hnode
      cases hnode : task.node.expr <;> simp_all [Expr.isAccess, Expr.isPlace]

end Bodies

/-! ## Programs -/

/-- An analysis that fails does so in one of the functions. -/
theorem exists_of_foldlM_analyzeOwner {decls : Declarations} {options : Options}
    {owners : List Owner} {results : ProgramFlow} {abort : Abort}
    (h : owners.foldlM (analyzeOwner decls options) results = .error abort) :
    ∃ owner ∈ owners, ∃ function context, owner.kind = .function function ∧
      runFunction decls options context owner function = .error abort := by
  induction owners generalizing results with
  | nil => cases h
  | cons owner owners ih =>
    rw [List.foldlM_cons] at h
    cases hfirst : analyzeOwner decls options results owner with
    | ok next =>
      rw [hfirst] at h
      obtain ⟨other, hother, hfailed⟩ := ih h
      exact ⟨other, List.mem_cons_of_mem _ hother, hfailed⟩
    | error found =>
      rw [hfirst] at h
      cases h
      refine ⟨owner, List.mem_cons_self, ?_⟩
      unfold analyzeOwner at hfirst
      split at hfirst
      · cases hfirst
      · rename_i function hkind
        refine ⟨function, results.context, hkind, ?_⟩
        cases hrun : runFunction decls options results.context owner function with
        | ok found =>
          rw [hrun] at hfirst
          cases hfirst
        | error found =>
          rw [hrun] at hfirst
          cases hfirst
          rfl

section Programs

variable {items : List Item} {assembly : Program.Assembly}
  (hitems : Program.ofItems items = .ok assembly)

include hitems

theorem trips_of_runFunction {owner : Owner} {function : Function}
    (howner : owner ∈ assembly.program.owners) (hkind : owner.kind = .function function)
    (hwell : owner.WellFormed assembly.declarations function) {options : Options}
    {context : Context}
    (h : runFunction assembly.declarations options context owner function = .error (.fault fault)) :
    owner.Trips function options fault := by
  obtain ⟨before, signature, body, hdrafted, hblocks⟩ := hwell.drafted
  have hscopes : Scopes (.ofFunction assembly.declarations options owner function)
      function.parameters :=
    scopes_of_ofTerm hdrafted hkind hwell.tree hblocks
  obtain ⟨s, habort⟩ := exists_of_runFunction h
  have htraces :=
    traces_analyzeFunction (.ofFunction assembly.declarations options owner function) function
    (p := ⟨none, []⟩) rfl (guides_guarded hscopes)
      (.inr ((ordered_of_wellFormed hwell).bounds _))
    (fun s' hrun => ?_) (fun _ => trivial) (.refl _ (.start context owner.nodes.size))
  · rw [show _ = _ from habort] at htraces
    obtain ⟨p, hinside, hstops⟩ := htraces
    exact (hstops.fault fault rfl).trips hwell hinside (Program.typed_ofItems hitems howner hkind)
      (fun hunblurred => wellBuilt_ofFunction hitems howner hkind
        ⟨hwell.typed, hwell.parameters, hunblurred⟩ options) hscopes
  · -- At the body, the parameters are in sight, and there is no loop around it.
    obtain ⟨-, hfresh⟩ := runs_declareParameters (fun _ hp => hp)
      (fun q extent hlookup => by simp [lookup?_start] at hlookup) hrun
    refine ⟨⟨0, hwell.tree.head.1, fun id _ => (hfresh id).trans (flowAt_start _ _ id),
      (sees_of_declareParameters hrun).2, ?_⟩, ?_⟩
    · exact fun _ site _ _ _ hsite => absurd hsite (Nat.not_lt_zero _)
    · rintro loop node condition body hloop - ⟨first, -, -, hlt⟩
      have hsize := index_lt_size hloop
      have hroot := (hwell.tree.head.2).eq_of_nil
      change loop.index < owner.nodes.size at hsize
      omega

/-- The analysis of a program with well-formed bodies gives results, or reports a violation of
lifetimes, whatever the options are, but for two faults. An assignment whose target declares the
variable that it then assigns to does not find it; and the address of a place behind a reference is
taken where an alias stands for the place. -/
theorem analyze_of_wellFormed (hwell : ∀ owner ∈ assembly.program.owners, ∀ function,
      owner.kind = .function function →
      owner.WellFormed assembly.declarations function) (options : Options) :
    (∃ results, analyze assembly.program assembly.declarations options = .ok results) ∨
    (∃ violation, analyze assembly.program assembly.declarations options = .error
      (.violation violation)) ∨
    ∃ fault, analyze assembly.program assembly.declarations options = .error (.fault fault) ∧
      ∃ owner ∈ assembly.program.owners, ∃ function, owner.kind = .function function ∧
        owner.Trips function options fault := by
  cases hrun : assembly.program.owners.toList.foldlM (analyzeOwner assembly.declarations options)
      { owners := ∅, context := .initial } with
  | ok results =>
    have hwalks := exists_walk_of_foldlM hitems
      (fun owner howner function hkind => laidOut_of_wellFormed (hwell owner howner function hkind))
        hrun
    exact .inl ⟨results, analyze_eq_ok hrun (incomplete_eq_nil hwalks)⟩
  | error abort =>
    have hanalyze : analyze assembly.program assembly.declarations options = .error abort := by
      rw [analyze, hrun]
      rfl
    cases abort with
    | violation violation => exact .inr (.inl ⟨violation, hanalyze⟩)
    | fault fault =>
      obtain ⟨owner, howner, function, context, hkind, hfailed⟩ :=
        exists_of_foldlM_analyzeOwner hrun
      have howner := Array.mem_toList_iff.1 howner
      exact .inr (.inr ⟨fault, hanalyze, owner, howner, function, hkind,
        trips_of_runFunction hitems howner hkind (hwell owner howner function hkind) hfailed⟩)

end Programs

/-- A body that is laid out is well-formed if it wants no places but variables, or what is behind a
reference, with types that have values, and does not jump. -/
theorem wellFormed_of_laysOut {decls : Declarations} {rank : Path → Nat} {owner : Owner}
    {function : Function} (h : owner.LaysOut decls rank function)
    (htree : Spans owner.nodes 0 [function.body] owner.nodes.size)
    (hdrafted : ∃ before signature body,
      Function.ofTerm before owner.id signature body = .ok owner ∧
      DeclaresInBlocks owner.nodes (body.openings 0)) {x : Path}
    (haims : ∀ id node, owner.nodes.get? id = some node → node.expr ≠ .breakLoop ∧
      node.expr ≠ .continueLoop ∧
      ∀ target, node.expr.aim? = some target →
      ∃ place, owner.nodes.get? target = some place ∧
        place.ty.isVoid = false ∧ (place.expr = .var x ∨ place.expr.isAccess = true)) :
    owner.WellFormed decls function where
  tree := htree
  drafted := hdrafted
  typed := h.laidOut.nodes.toWellTyped
  parameters := h.laidOut.parameters
  places := by
    intro id node target hnode hexpr
    obtain ⟨place, hplace, -, hvar | haccess⟩ :=
      (haims id node hnode).2.2 target (Expr.aim?_eq_some_iff.2 hexpr)
    · exact .var hplace hvar
    · exact .access hplace haccess
  addressed := by
    intro id node target targetNode hnode hexpr hfound
    obtain ⟨place, hplace, hvoid, -⟩ :=
      (haims id node hnode).2.2 target (Expr.aim?_eq_some_iff.2 (.inl hexpr))
    cases hfound.symm.trans hplace
    exact hvoid
  jumps := fun id node hnode hexpr =>
    (hexpr.elim (haims id node hnode).1 (haims id node hnode).2.1).elim

/-- `*{ x = new int; &x } = v`, where the assigned variable is declared in the target. -/
def confining : Term :=
  .block
    [.assign
    (.dereference (.block [.declare "x" (.newDefault .int), .addressOf (.var "x")])) (.var "v")]

set_option synthInstance.maxSize 256

/-- The variable that `f(int* v) { *{ x = new int; &x } = v }` assigns to is declared in the
target. -/
theorem declaresInTarget_of_confining : ∃ assembly owner function path, Program.ofItems
    [.function "f" [⟨"v", .pointer .int, true⟩] .void confining] = .ok assembly ∧
    owner ∈ assembly.program.owners ∧ owner.kind = .function function ∧
    owner.WellFormed assembly.declarations function ∧
    analyze assembly.program assembly.declarations {} = .error (.fault (.hiddenBinding path)) ∧
    DeclaresInTarget owner.nodes := by
  have h : ∃ assembly,
      Program.ofItems [.function "f" [⟨"v", .pointer .int, true⟩] .void confining] =
      .ok assembly ∧
      ∃ owner ∈ assembly.program.owners, assembly.program.Only owner ∧
      ∃ function, owner.kind = .function function ∧
        owner.LaysOut assembly.declarations (fun _ => 0) function ∧
        (∀ id node, owner.nodes.get? id = some node → node.expr ≠ .breakLoop ∧
        node.expr ≠ .continueLoop ∧
          ∀ target, node.expr.aim? = some target →
          ∃ place, owner.nodes.get? target = some place ∧ place.ty.isVoid = false ∧
            (place.expr = .var ⟨["f", "$block_0", "$block_1", "x"]⟩ ∨
            place.expr.isAccess = true)) ∧
        [function.body].foldlM (owner.nodes.treeEnd? owner.depth) 0 = some owner.nodes.size ∧
        DeclaresInBlocks owner.nodes (confining.openings 0) ∧
        analyze assembly.program assembly.declarations {} =
          .error (.fault (.hiddenBinding ⟨["f", "$block_0", "$block_1", "x"]⟩)) := by
    decide +kernel
  obtain ⟨assembly, hitems, owner, howner, honly, function, hkind, hlays, haims, htree,
    hblocks, hfault⟩ := h
  obtain ⟨before, signature, body, hdrafted, -, -, -, item, hitem, hbody⟩ :=
    ((Program.traced_ofItems hitems).bodies owner howner function hkind).drafted
  obtain rfl := List.mem_singleton.1 hitem
  cases hbody
  have hwell := wellFormed_of_laysOut hlays (spans_of_treeEnd? htree)
    ⟨before, signature, confining, hdrafted, hblocks⟩ haims
  have hall := analyze_of_wellFormed hitems (fun other hother f hf => by
    obtain rfl := honly.eq_of_function hother hf
    cases hkind.symm.trans hf
    exact hwell) {}
  refine ⟨assembly, owner, function, _, hitems, howner, hkind, hwell, hfault, ?_⟩
  rw [hfault] at hall
  obtain ⟨_, hresults⟩ | ⟨_, hviolation⟩
    | ⟨fault, hsame, other, hother, f, hf, htrips⟩ := hall
  · cases hresults
  · cases hviolation
  · cases hsame
    obtain rfl := honly.eq_of_function hother hf
    cases htrips with
    | hidden _ h => exact h

end Flow
end Regions
