import Regions.Proofs.Exactness
import Regions.Proofs.Provenance

/-!
# Extents of places and plain values

What the results of nodes say about the variables that the nodes name, and about values without
references. Both hold whether or not dereferences are resolved.

* `Setting.Sound`: the function is well built, and its body is a tree;
* `Anchors`: the extent is that of the variable at a path;
* `anchors_of_names`: a node that names a variable has the extents of that variable;
* `Bundle.Keyed`: the extents of a bundle are for what is inside values of a type;
* `tracked_eq_nil`: a value without references refers to nothing.
-/

namespace Regions

/-- The bundle has extents only for what is inside values of the type. -/
def Bundle.Keyed (decls : Declarations) (bundle : Bundle) (ty : Ty) : Prop :=
  ∀ m ∈ bundle, (decls.typeAlong? ty m.segments).isSome = true

/-- The names of members are distinct, struct literals fit to their types, and no variable has the
name of a block. -/
structure Owner.Legible (decls : Declarations) (owner : Owner) (function : Function) : Prop where
  nodes : Flow.Legible decls owner.nodes
  names : Unblurred function.parameters owner.nodes

theorem Owner.Neat.legible {decls : Declarations} {owner : Owner} {function : Function}
    (h : owner.Neat decls function) : owner.Legible decls function :=
  ⟨h.nodes.legible, h.names⟩

namespace Flow

variable {X : Setting} {p p' : Progress X} {s s' : State} {function : Function} {extent : Extent}
  {bundle : Bundle}

/-! ## Well-built functions -/

/-- The names and types of the function are in order, its variables are apart and below its path,
and its body is a tree. -/
structure Setting.Sound (X : Setting) (function : Function) : Prop where
  typed : TypedNodes X.env.declarations X.env.owner.nodes
  legible : Legible X.env.declarations X.env.owner.nodes
  sited : X.env.owner.Sited function
  inside : X.env.owner.Inside function
  scope : X.env.scope = function.path
  closed : X.Closed
  acyclic : X.Acyclic
  /-- The analysis comes to a node in one position only. -/
  unique : ∀ id position position', X.visits position id → X.visits position' id →
    position = position'

/-- The analysis of a function of a program. -/
abbrev Setting.ofOwner (decls : Declarations) (options : Options) (owner : Owner)
    (function : Function) : Setting :=
  .ofFunction (.ofFunction decls options owner function) function

theorem sound_ofOwner {items : List Item} {assembly : Program.Assembly}
    (hitems : Program.ofItems items = .ok assembly) {owner : Owner}
    (howner : owner ∈ assembly.program.owners) (hkind : owner.kind = .function function)
    (hlegible : owner.Legible assembly.declarations function) {ids : List NodeId}
    (hwalk : owner.walk = .ok ids) (hnodup : ids.Nodup) (options : Options) :
    (Setting.ofOwner assembly.declarations options owner function).Sound function := by
  have hwalkFrom := (Owner.walk_eq hkind).symm.trans hwalk
  exact {
    typed := Program.typed_ofItems hitems howner hkind
    legible := hlegible.nodes
    sited := Program.sited_ofItems hitems howner hkind hlegible.names
    inside := Program.inside_of_mem hitems howner hkind
    scope := rfl
    closed := closed_traverses _ _ _
    acyclic := acyclic_of_walkFrom _ (by simpa using ⟨_, _, hwalkFrom⟩)
    unique := fun _ _ _ h h' => h.position_eq h' hwalkFrom hnodup }

/-! ## Nodes that name variables -/

/-- The path of a place is that of the variable, or of the member of one, which the place names. -/
theorem exists_names_of_placePath? {owner : Owner} {depth : Nat} {id : NodeId} {path : Path}
    (h : placePath? owner depth id = .ok (some path)) :
    ∃ x m, Names owner.nodes id x m ∧ path = x ++ m := by
  induction depth generalizing id path with
  | zero => cases h
  | succ depth ih =>
    rw [placePath?] at h
    obtain ⟨node, hnode, h⟩ := except_bind_eq_ok h
    have hnode : owner.nodes.get? id = some node := by
      unfold Owner.node at hnode
      split at hnode <;> simp_all
    split at h
    · rename_i x hexpr
      cases h
      exact ⟨_, .whole, .var hnode hexpr, (Path.append_whole _).symm⟩
    · rename_i target name hexpr
      obtain ⟨path?, hpath, h⟩ := except_bind_eq_ok h
      cases path? with
      | none => cases h
      | some above =>
        cases h
        obtain ⟨x, m, hnames, rfl⟩ := ih hpath
        exact ⟨x, m.child name, .member hnode hexpr hnames, (Path.append_child x m name).symm⟩
    · cases h

/-- The extent is that of the variable at the path. -/
structure Anchors (path : Path) (extent : Extent) : Prop where
  slot : extent.slot = .root path .localSlot
  value : extent.value = .none ∨ extent.value.path = path ∧ extent.value.origin = .localValue

theorem Anchors.isSlot_slot {path : Path} (h : Anchors path extent) :
    extent.slot.isSlot = true := by
  rw [h.slot]
  rfl

/-- A node that names a variable has the extents of that variable; read as a value, it has none for
members without references. -/
def NamesExtents (X : Setting) (id : NodeId) (bundle : Bundle) : Prop :=
  ∀ (m : Path) extent, bundle[m]? = some extent → ∀ x n, Names X.env.owner.nodes id x n →
    Anchors (x ++ n ++ m) extent ∨ extent = .untracked ∧ ¬ X.visits .place id

theorem Result.namesExtents (hclosed : X.Closed) (hunique : X.Unique) (hcoherent : Coherent s)
    (hs : ∀ id flow, s.flowAt id = some flow → NamesExtents X id flow.bundle) {task : Task X}
    (hresult : Result X.env s task.id task.node.ty task.position task.node.expr bundle) :
    NamesExtents X task.id bundle := by
  intro m extent hm x n hnames
  have hnode := env_node_eq_ok_iff.1 task.found
  have huses := hclosed _ _ _ task.visited task.found
  have hvalue : task.position = .value → ¬ X.visits .place task.id := fun hposition hplace => by
    have := hunique _ _ _ task.visited hplace
    simp [hposition] at this
  have hlookup : ∀ {path : Path} {extent : Extent}, s.frame.lookup? path = some extent →
      Anchors path extent := fun h =>
    ⟨(hcoherent.bindings.lookup h).slot, (hcoherent.bindings.lookup h).value⟩
  generalize hposition : task.position = position at hresult huses hvalue
  cases hnames with
  | var hnode' hexpr =>
    cases hnode.symm.trans hnode'
    rw [hexpr] at hresult
    rw [Path.append_whole]
    cases hresult.sourced hm with
    | untracked => exact .inr ⟨rfl, hvalue rfl⟩
    | read _ _ _ hread => exact .inl (hlookup hread)
    | named _ _ hread => exact .inl (hlookup hread)
    | resolved hpointer | fetched hpointer | behind hpointer => cases hpointer
  | @member _ target _ name _ n hnode' hexpr htarget =>
    cases hnode.symm.trans hnode'
    rw [hexpr] at hresult huses
    cases hresult.sourced hm with
    | untracked => exact .inr ⟨rfl, hvalue rfl⟩
    | resolved hpointer | fetched hpointer | behind hpointer => cases hpointer
    | member hflow hextent =>
      rw [Path.append_child, Path.child_append]
      refine (hs _ _ hflow _ _ hextent x n htarget).imp_right fun h =>
        ⟨h.1, fun hplace => h.2 ?_⟩
      have hplaced := hposition.symm.trans (hunique _ _ _ task.visited hplace)
      exact huses (.place, target) (by simp [Expr.uses, hplaced])

/-! ## Values without references -/

theorem covering_keyed (decls : Declarations) :
    Covering decls decls.Distinct (Bundle.Keyed decls) where
  complete := by
    rintro bundle ty hdistinct ⟨members, hmembers, hpaths⟩ m hm
    obtain ⟨⟨_, inner⟩, hmember, rfl⟩ := List.mem_map.1 ((hpaths m).1 hm)
    rw [Declarations.typeAlong?_of_mem_members hdistinct hmembers hmember]
    rfl
  scopedTo := by
    intro bundle ty inner name hkeyed _ hmember m hm
    rw [← Declarations.typeAlong?_single_append hmember]
    exact hkeyed _ (Bundle.mem_scopedTo_iff.1 hm)

/-- All results have extents only for what is inside values of the types, also where these have no
layout. -/
theorem Inside.keyed (htypes : TypedNodes X.env.declarations X.env.owner.nodes)
    (hlegible : Legible X.env.declarations X.env.owner.nodes) (h : Inside X p s p' s')
    (hcoherent : Coherent s) (hs : ∀ id, s.flowAt id = none) :
    ∀ id flow, s'.flowAt id = some flow → ∀ node, X.env.node id = .ok node →
      flow.bundle.Keyed X.env.declarations node.ty := by
  refine h.flows (F := fun id bundle => ∀ node, X.env.node id = .ok node →
    bundle.Keyed X.env.declarations node.ty) (fun s task bundle _ hs hresult node hnode =>
    ?_) hcoherent (by simp [hs])
  cases hnode.symm.trans task.found
  refine hresult.covers (covering_keyed _) htypes hlegible.distinct task.found hs ?_
  intro fields entries members hexpr hmembers hentries m hm
  have hnode := env_node_eq_ok_iff.1 task.found
  rcases mem_defaults_iff.1 hm with hgiven | hdefault
  · -- What a field gives is inside the member that it is for.
    rw [Std.ExtTreeMap.mem_ofList, List.contains_iff_mem] at hgiven
    obtain ⟨entry, hentry, rfl⟩ := List.mem_map.1 hgiven
    obtain ⟨part, hpart, hmem⟩ := List.mem_flatten.1 hentry
    obtain ⟨field, hfield, flow, hflow, rfl⟩ := forall₂_mem_right hentries hpart
    obtain ⟨⟨n, found⟩, hn, rfl⟩ := List.mem_map.1 hmem
    obtain ⟨value, hvalue, hmember⟩ := hlegible.literals _ _ _ hnode hexpr field hfield
    rw [Declarations.typeAlong?_single_append hmember]
    refine hs field.2 flow hflow value (env_node_eq_ok_iff.2 hvalue) n ?_
    exact Std.ExtTreeMap.mem_iff_isSome_getElem?.2
      (by rw [Std.ExtTreeMap.mem_toList_iff_getElem?_eq_some.1 hn]; rfl)
  · obtain ⟨field, hfield, rfl⟩ := List.mem_map.1 hdefault
    rw [(Declarations.typeAlong?_of_mem_fields (hlegible.distinct _ _ hnode) hmembers hfield).1]
    rfl

/-- Asked is for values without references. -/
def Plain (position : Position) (b : Bool) : Prop := position = .value ∧ b = false

theorem Result.plainExtents (htypes : TypedNodes X.env.declarations X.env.owner.nodes)
    (hlegible : Legible X.env.declarations X.env.owner.nodes) (hclosed : X.Closed)
    (hunique : X.Unique)
    (hs : ∀ id flow, s.flowAt id = some flow → ExactExtents X Plain id flow.bundle)
    {task : Task X}
    (hresult : Result X.env s task.id task.node.ty task.position task.node.expr bundle) :
    ExactExtents X Plain task.id bundle := by
  refine hresult.exactExtents htypes hclosed hs hlegible hunique ?_
  rintro _ _ ⟨rfl, rfl⟩ (hasked | hasked) <;> cases hasked

/-- A value whose type carries no references has no data at any of its members. -/
theorem ExactExtents.value_eq_none {id : NodeId} {node : Node} (h : ExactExtents X Plain id bundle)
    (hvisits : X.visits .value id) (hnode : X.env.node id = .ok node)
    (hkeyed : bundle.Keyed X.env.declarations node.ty)
    (hplain : X.env.declarations.tracked node.ty = .ok false) {m : Path}
    (hm : bundle[m]? = some extent) : extent.value = .none := by
  have hmem : m ∈ bundle := Std.ExtTreeMap.mem_iff_isSome_getElem?.2 (by simp [hm])
  obtain ⟨ty, hty⟩ := Option.isSome_iff_exists.1 (hkeyed m hmem)
  have hb :=
    Declarations.tracked_eq_false_of_contains hplain (Declarations.contains_of_typeAlong? hty)
  rw [show extent = .untracked from h m extent hm .value node ty false ⟨rfl, rfl⟩
    hvisits hnode hty hb]
  rfl

/-! ## All results -/

/-- What the results of the nodes of a well-built function say. -/
structure Outlined (X : Setting) (s : State) : Prop where
  visited : ∀ id flow, s.flowAt id = some flow → ∃ position node, X.visits position id ∧
    X.env.node id = .ok node
  names : ∀ id flow, s.flowAt id = some flow → NamesExtents X id flow.bundle
  plain : ∀ id flow, s.flowAt id = some flow → ExactExtents X Plain id flow.bundle
  keyed : ∀ id flow, s.flowAt id = some flow → ∀ node, X.env.node id = .ok node →
    flow.bundle.Keyed X.env.declarations node.ty

theorem Inside.outlined (hsound : X.Sound function) (h : Inside X p s p' s')
    (hcoherent : Coherent s) (hs : ∀ id, s.flowAt id = none) : Outlined X s' := by
  have hnone : ∀ {P : NodeId → NodeFlow → Prop} id flow, s.flowAt id = some flow →
      P id flow :=
    fun id flow hid => by simp [hs id] at hid
  refine ⟨fun id flow hid => ?_, ?_, ?_, fun id flow hid node hnode => ?_⟩
  · exact h.flows
      (F := fun id _ => ∃ position node, X.visits position id ∧ X.env.node id = .ok node)
      (fun s task _ _ _ _ => ⟨_, _, task.visited, task.found⟩) hcoherent hnone id flow hid
  · exact h.flows (fun s task bundle hcoherent hs hresult =>
      hresult.namesExtents hsound.closed hsound.unique hcoherent hs) hcoherent hnone
  · exact h.flows
      (fun s task bundle _ hs hresult => hresult.plainExtents hsound.typed hsound.legible
      hsound.closed hsound.unique hs) hcoherent hnone
  · exact h.keyed hsound.typed hsound.legible hcoherent hs id flow hid node hnode

namespace Outlined

variable {id : NodeId} {flow : NodeFlow} {node : Node}

/-- A place that names a variable has the extents of the variable. -/
theorem anchors (h : Outlined X s) (hflow : s.flowAt id = some flow) (hplace : X.visits .place id)
    {x n : Path} (hnames : Names X.env.owner.nodes id x n) {m : Path}
    (hm : flow.bundle[m]? = some extent) : Anchors (x ++ n ++ m) extent :=
  (h.names id flow hflow m extent hm x n hnames).resolve_right fun hvalue => hvalue.2 hplace

theorem tracked_eq_nil (h : Outlined X s) (hflow : s.flowAt id = some flow)
    (hvalue : X.visits .value id) (hnode : X.env.node id = .ok node)
    (hplain : X.env.tracked node.ty = .ok false) : flow.bundle.tracked = [] := by
  rw [List.eq_nil_iff_forall_not_mem]
  intro l hl
  obtain ⟨m, extent, hm, rfl, hsome⟩ := Bundle.mem_tracked_iff.1 hl
  have hnone := (h.plain id flow hflow).value_eq_none hvalue hnode
    (h.keyed id flow hflow node hnode) hplain hm
  simp [hnone, Lifetime.isNone, Lifetime.none] at hsome

end Outlined

end Flow
end Regions
