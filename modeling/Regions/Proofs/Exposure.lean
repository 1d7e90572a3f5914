import Regions.Proofs.SlotTypes

/-!
# Storage in sight

Which storage a node can refer to is to be seen in the text, up to references: the slots in the
result of a node that names a variable belong to that variable, and all other slots that a reference
leads to have been exposed before.

* `Indirect`: nodes that name storage behind a reference;
* `Charted`: the slots that a result may have;
* `Inside.charted`: results only have such slots, where dereferences are not resolved;
* `Introduced`: visible paths belong to variables whose declarations have results;
* `Inside.introduced`: so it is whenever no node is at work.
-/

namespace Regions

variable {id : NodeId} {node : Node} {m path : Path} {extent : Extent}

/-- The node names storage behind a reference, or a member of it. -/
inductive Indirect (nodes : Arena Node) : NodeId → Prop
  | dereference {id target : NodeId} {node : Node} (hnode : nodes.get? id = some node)
      (hexpr : node.expr = .dereference target) : Indirect nodes id
  | index {id target subscript : NodeId} {node : Node} (hnode : nodes.get? id = some node)
      (hexpr : node.expr = .index target subscript) : Indirect nodes id
  | member {id target : NodeId} {node : Node} {name : String} (hnode : nodes.get? id = some node)
      (hexpr : node.expr = .memberAccess target name)
      (htarget : Indirect nodes target) : Indirect nodes id

theorem Indirect.expr_of_node {nodes : Arena Node} (h : Indirect nodes id)
    (hnode : nodes.get? id = some node) : (∃ target, node.expr = .dereference target) ∨
    (∃ target subscript, node.expr = .index target subscript) ∨
      ∃ target name, node.expr = .memberAccess target name ∧ Indirect nodes target := by
  cases h with
  | dereference hnode' hexpr =>
    cases hnode.symm.trans hnode'
    exact .inl ⟨_, hexpr⟩
  | index hnode' hexpr =>
    cases hnode.symm.trans hnode'
    exact .inr (.inl ⟨_, _, hexpr⟩)
  | member hnode' hexpr htarget =>
    cases hnode.symm.trans hnode'
    exact .inr (.inr ⟨_, _, hexpr, htarget⟩)

theorem Names.expr_of_node {nodes : Arena Node} {x : Path} (h : Names nodes id x m)
    (hnode : nodes.get? id = some node) : (node.expr = .var x ∧ m = .whole) ∨
      ∃ target name m', node.expr = .memberAccess target name ∧ m = m'.child name ∧
      Names nodes target x m' := by
  cases h with
  | var hnode' hexpr =>
    cases hnode.symm.trans hnode'
    exact .inl ⟨hexpr, rfl⟩
  | member hnode' hexpr htarget =>
    cases hnode.symm.trans hnode'
    exact .inr ⟨_, _, _, hexpr, rfl, htarget⟩

namespace Flow

variable {X : Setting} {p p' : Progress X} {s s' : State} {env : Env}

/-! ## Slots of results -/

/-- The slots that may be in the result of a node, when the storage at the paths is exposed. -/
structure Charted (env : Env) (exposed : PathSet) (id : NodeId) (m : Path) (extent : Extent) :
    Prop where
  value : extent.value.isSlot = true → extent.value.path ∈ exposed
  named : ∀ x n, Names env.owner.nodes id x n → extent.slot.isSlot = true →
    extent.slot.path = x ++ n ++ m
  behind : Indirect env.owner.nodes id → extent.slot.isSlot = true →
    extent.slot.path ∈ exposed

theorem Charted.mono {exposed exposed' : PathSet} (h : Charted env exposed id m extent)
    (hsub : ∀ path, path ∈ exposed → path ∈ exposed') :
    Charted env exposed' id m extent where
  value hslot := hsub _ (h.value hslot)
  named := h.named
  behind hid hslot := hsub _ (h.behind hid hslot)

theorem charted_ofValue {exposed : PathSet} {value : Lifetime}
    (h : value.isSlot = true → value.path ∈ exposed) :
    Charted env exposed id m (.ofValue value) where
  value := h
  named x n _ hslot := by cases hslot
  behind _ hslot := by cases hslot

/-- What a rule records only has slots that it may have, if what its operands have does. -/
theorem Result.charted (hoff : env.options.resolveAliases = false) (hcoherent : Coherent s)
    (hs : s.Results (Charted env s.context.exposed)) (hnode : env.owner.nodes.get? id = some node)
    {position : Position} {bundle : Bundle}
    (hresult : Result env s id node.ty position node.expr bundle) (hm : bundle[m]? = some extent) :
    Charted env s.context.exposed id m extent := by
  have hnames := fun {x n} (h : Names env.owner.nodes id x n) => h.expr_of_node hnode
  have hindirect := fun (h : Indirect env.owner.nodes id) => h.expr_of_node hnode
  have hvariable : ∀ {x m : Path}, node.expr = .var x →
    s.frame.lookup? (x ++ m) = some extent → Charted env s.context.exposed id m extent := by
    intro x m hexpr hlookup
    have hanchored := hcoherent.bindings.lookup hlookup
    refine ⟨fun hslot => ?_, fun y n h _ => ?_, fun h => ?_⟩
    · rw [hanchored.isSlot_value] at hslot
      cases hslot
    · obtain ⟨rfl, rfl⟩ : x = y ∧ n = .whole := by simpa [hexpr] using hnames h
      rw [hanchored.slot, Path.append_whole]
      rfl
    · simp [hexpr] at hindirect
      exact (hindirect h).elim
  generalize hexpr : node.expr = expr at hresult hnames hindirect
  cases hresult.sourced hm with
  | untracked | fetched | allocated | shared | called | joined =>
    exact charted_ofValue fun hslot => by cases hslot
  | read _ _ _ hlookup | named _ _ hlookup => exact hvariable hexpr hlookup
  | resolved _ hhome =>
    rw [pointee?_eq_none hoff] at hhome
    cases hhome
  | behind hpointer hfields hfield =>
    refine ⟨fun hslot => ?_, fun x n h => ?_, fun _ hslot => ?_⟩
    · unfold Env.behind at hslot
      dsimp only at hslot
      split at hslot <;> cases hslot
    · cases hpointer <;> simpa using hnames h
    · cases hpointer with
      | dereference hflow hwhole | index hflow hwhole => exact (hs _ _ hflow _ _ hwhole).value hslot
  | @member _ target name flow m extent hflow hextent =>
    have htarget := hs _ _ hflow _ _ hextent
    refine ⟨htarget.value, fun x n h hslot => ?_, fun h hslot => ?_⟩
    · obtain ⟨_, _, n', ⟨rfl, rfl⟩, rfl, h'⟩ : ∃ t c n', (target = t ∧ name = c) ∧
        n = n'.child c ∧ Names env.owner.nodes t x n' := by simpa using hnames h
      rw [htarget.named _ _ h' hslot]
      simp [Path.child_eq_append, Path.append_assoc]
    · refine htarget.behind ?_ hslot
      simpa using hindirect h
  | address hflow hwhole hsome hexposed => exact charted_ofValue hexposed
  | inserted _ _ hflow hextent => exact charted_ofValue (hs _ _ hflow _ _ hextent).value
  | result _ _ hflow hextent =>
    refine ⟨(hs _ _ hflow _ _ hextent).value, fun x n h => ?_, fun h => ?_⟩
    · simpa using hnames h
    · simpa using hindirect h

/-- Only new results have to be looked at. -/
theorem lasts_charted (hoff : X.env.options.resolveAliases = false) :
    Lasts X (fun _ s => Coherent s) fun _ s => s.Results (Charted X.env s.context.exposed) :=
  lasts_flows (F := fun s id flow => ∀ m extent, flow.bundle[m]? = some extent →
      Charted X.env s.context.exposed id m extent)
    (fun hretains h m extent hm => (h m extent hm).mono hretains.grows.exposed)
    fun {_ _ task _ _} hcoherent _ hs hresult _ _ _ hm =>
      hresult.charted hoff hcoherent hs (env_node_eq_ok_iff.1 task.found) hm

theorem Inside.charted (hoff : X.env.options.resolveAliases = false) (h : Inside X p s p' s')
    (hcoherent : Coherent s) (hs : s.Results (Charted X.env s.context.exposed)) :
    s'.Results (Charted X.env s'.context.exposed) :=
  ((lasts_coherent.and (lasts_charted hoff)).inside h ⟨hcoherent, hs⟩).2

/-! ## Visible paths -/

/-- The path belongs to a parameter, or to a variable whose declaration has a result or is at
work. -/
def Introduced (X : Setting) (p : Progress X) (s : State) (path : Path) : Prop :=
  (∃ parameter ∈ X.parameters, ∃ m, path = parameter.path ++ m) ∨
    ∃ id node x value m, X.env.node id = .ok node ∧ node.expr = .declaration x value ∧
    path = x ++ m ∧ (s.flowAt id ≠ none ∨ ∃ task, p.task = some task ∧ task.id = id)

theorem Introduced.later (h : Introduced X p s path) (hgrows : Grows s s')
    (hadvances : Advances p p' s') : Introduced X p' s' path := by
  rcases h with hparameter | ⟨id, node, x, value, m, hnode, hexpr, hpath, hid⟩
  · exact .inl hparameter
  · refine .inr ⟨id, node, x, value, m, hnode, hexpr, hpath, ?_⟩
    rcases hid with hflow | ⟨task, hwork, rfl⟩
    · exact .inl (hgrows.recorded_ne_none hflow)
    · rcases hadvances task hwork with hflow | ⟨task', hwork', hid, -⟩
      · exact .inl hflow
      · exact .inr ⟨task', hwork', hid⟩

theorem Declaring.introduced {task : Task X} {field : Field} {initial? : Option Extent}
    (h : Declaring s task path field initial?) (joins : List Lifetime) :
    Introduced X ⟨some (task.did field.path), joins⟩ s' (path ++ field.path) := by
  obtain ⟨value, flow, ty, fields, hexpr, -⟩ := h.operands
  exact .inr ⟨task.id, task.node, path, value, field.path, task.found, hexpr, rfl,
    .inr ⟨_, rfl, rfl⟩⟩

theorem Step.introduced (h : Step X p s p' s')
    (hs : s.frame.All fun path _ => Introduced X p s path) :
    s'.frame.All fun path _ => Introduced X p' s' path := by
  have hmono : s.frame.All fun path _ => Introduced X p' s' path :=
    hs.imp fun path _ hpath => hpath.later h.grows h.advances
  cases h with
  | begin | note | region | expose | store | returned | through | skip | hidden | record =>
      exact hmono
  | declared hdeclaring | plain hdeclaring => exact hmono.declare (hdeclaring.introduced _)
  | rebound _ _ _ hframe | entered _ _ _ _ _ _ _ hframe => exact hmono.rebindVisible hframe
  | parameter hparameter hfields hfield hrun =>
    obtain ⟨-, extent, hframe, -⟩ := frame_declareParameterMember hrun
    rw [hframe]
    exact hmono.declare (.inl ⟨_, hparameter, _, rfl⟩)

theorem lasts_introduced :
    Lasts X (fun _ _ => True) fun p s => s.frame.All fun path _ => Introduced X p s path where
  step hstep _ hs := hstep.introduced hs
  enter _ henter hs := hs.enter henter
  leave htask _ hgrows hframe hs hs' := Frame.All.absorb
    (hs.imp fun _ _ hpath => hpath.later (hgrows.trans (Grows.frame _ _))
      (advances_of_task_eq_none htask))
    hs' hframe
  join htask hjoining _ _ hs := Frame.All.rebindVisible
    (hs.imp fun _ _ hpath => hpath.later hjoining.grows (advances_of_task_eq_none htask))
      hjoining.rebind
  flowBack _ _ _ _ _ _ _ hs :=
    hs.imp fun _ _ hpath => hpath.later (grows_store _ _ _) (advances_refl _ _)

theorem Inside.introduced (h : Inside X p s p' s')
    (hs : s.frame.All fun path _ => Introduced X p s path) :
    s'.frame.All fun path _ => Introduced X p' s' path :=
  lasts_introduced.inside h hs

end Flow
end Regions
