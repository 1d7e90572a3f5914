import Regions.Proofs.SlotTypes
import Regions.Proofs.Trees

/-!
# Exact results

In a tree, where every node has one position, results are exact if dereferences are not resolved.
The value of a node has data for exactly the members whose types carry references; a node that names
storage has a slot for each member as well.

* `Exact`: what an extent has in a position;
* `Result.exactExtents`: the extents of a result are exact, where this is asked for;
* `Inside.exactExtents`: so they are in every state that the analysis comes by;
* `exact_of_point`: results are exact at every point of the analysis.
-/

namespace Regions.Flow

/-- What an extent has, in a position, for a member whose type carries references or not. -/
def Exact : Position → Bool → Extent → Prop
  | .value, true, extent => extent.value.isNone = false
  | .value, false, extent => extent = .untracked
  | .place, tracked, extent =>
    extent.slot.isNone = false ∧ (extent.value.isNone = false ↔ tracked = true)

variable {X : Setting} {p p' : Progress X} {s s' : State} {env : Env} {function : Function}
  {base : Nat}

/-! ## Exact extents -/

/-- Types without members and references carry none. -/
theorem tracked_of_isReference_eq_false {decls : Declarations} {ty inner : Ty} {names : List String}
    (hplain : ty.aggregate? = none) (hreference : ty.isReference = false)
    (halong : decls.typeAlong? ty names = some inner) : decls.tracked inner = .ok false := by
  cases names with
  | nil =>
    cases halong
    rw [Declarations.tracked, Declarations.tracksWithin, hplain]
    exact congrArg Except.ok hreference
  | cons name rest =>
    have hnone : decls.memberType? ty name = .ok none := by
      rw [Declarations.memberType?, Declarations.aggregateOf?, hplain]
      rfl
    rw [Declarations.typeAlong?, hnone] at halong
    cases halong

theorem tracked_of_isReference {decls : Declarations} {ty : Ty}
    (hreference : ty.isReference = true) : decls.tracked ty = .ok true := by
  have hplain : ty.aggregate? = none := by
    cases ty <;> simp_all [Ty.isReference, Ty.aggregate?]
  rw [Declarations.tracked, Declarations.tracksWithin, hplain]
  exact congrArg Except.ok hreference

/-- The extents of a node are exact, in all positions that the analysis comes to it and as far as
`W` asks. -/
def ExactExtents (X : Setting) (W : Position → Bool → Prop) (id : NodeId) (bundle : Bundle) :
    Prop :=
  ∀ (m : Path) extent, bundle[m]? = some extent → ∀ position node ty b, W position b →
    X.visits position id →
    X.env.node id = .ok node → X.env.declarations.typeAlong? node.ty m.segments = some ty →
    X.env.declarations.tracked ty = .ok b → Exact position b extent

/-- Dereferences are not resolved, and what is bound has the types of the variables. -/
structure Unresolved (X : Setting) (s : State) : Prop where
  off : X.env.options.resolveAliases = false
  coherent : Coherent s
  typed : ∃ function base, WellBuilt X.env function ∧ TypedState X.env function base s

section Results

variable {W : Position → Bool → Prop} {bundle : Bundle} {task : Task X}
  (htypes : TypedNodes X.env.declarations X.env.owner.nodes) (hclosed : X.Closed)
  (hexact : ∀ id flow, s.flowAt id = some flow → ExactExtents X W id flow.bundle)

include htypes hclosed hexact

theorem Pointer.isNone_value (hW : W .value true) {kind : String} {pointer : Extent}
    (h : Pointer s task.node.expr kind pointer) : pointer.value.isNone = false := by
  have htyped := htypes task.id task.node (env_node_eq_ok_iff.1 task.found)
  have huses := hclosed _ _ _ task.visited task.found
  generalize task.node.expr = expr at h htyped huses
  cases h with
  | dereference hflow hwhole | index hflow hwhole =>
    obtain ⟨targetNode, htarget, hty⟩ := htyped
    exact hexact _ _ hflow _ _ hwhole .value targetNode _ true hW
      (huses (.value, _) (by simp [Expr.uses])) (env_node_eq_ok_iff.2 htarget) rfl
      (tracked_of_isReference (by rw [hty]; rfl))

/-- What the rule of a node records is exact if what its operands have is. For a value without
references nothing has to be known about the frame. -/
theorem Result.exactExtents (hlegible : Legible X.env.declarations X.env.owner.nodes)
    (hunique : X.Unique)
    (hknown : ∀ position b, W position b → position = .place ∨ b = true → Unresolved X s ∧
      W .value true)
    (hresult : Result X.env s task.id task.node.ty task.position task.node.expr bundle) :
    ExactExtents X W task.id bundle := by
  intro m extent hm position node ty b hW hvisits hfound halong hb
  have hposition := hunique _ _ _ task.visited hvisits
  cases hfound.symm.trans task.found
  have hnode := env_node_eq_ok_iff.1 task.found
  have htyped := htypes task.id task.node hnode
  have huses := hclosed _ _ _ task.visited task.found
  have hpointer : ∀ {kind pointer}, position = .place →
    Pointer s task.node.expr kind pointer → pointer.value.isNone = false :=
    fun hplace h => h.isNone_value htypes hclosed hexact (hknown position b hW (.inl hplace)).2
  -- A field of the type carries references or not as the type along its path does.
  have hfield : ∀ {fields : List Field} {field : Field},
    X.env.fields task.node.ty = .ok fields →
      field ∈ fields → field.path = m → field.tracked = b := by
    rintro fields field hfields hmem rfl
    obtain ⟨halong', htracked⟩ := Declarations.typeAlong?_of_mem_fields
      (hlegible.distinct task.id task.node hnode) hfields hmem
    cases halong.symm.trans halong'
    exact Except.ok.inj (htracked.symm.trans hb)
  have hwhole : m = .whole → task.node.ty.isReference = true → b = true := by
    rintro rfl hreference
    cases halong
    exact Except.ok.inj (hb.symm.trans (tracked_of_isReference hreference))
  have hvariable : ∀ {x : Path}, position = .place ∨ b = true → task.node.expr = .var x →
      s.frame.lookup? (x ++ m) = some extent → (extent.value.isNone = false ↔ b = true) := by
    intro x hasked hexpr hlookup
    obtain ⟨function, base, hbuilt, hs⟩ := (hknown position b hW hasked).1.typed
    obtain ⟨site, hbinds⟩ := binds_of_var hbuilt.sited task.found hexpr
    obtain ⟨found, b', hdenotes, hb', hiff⟩ := hs.bindings.lookup hlookup
    cases hbuilt.denotes_unique ((Denotes.of_binds hbinds).append halong) hdenotes
    cases hb.symm.trans hb'
    exact hiff
  rw [hposition] at hresult huses
  generalize hexpr : task.node.expr = expr at hresult htyped huses hpointer
  cases hresult.sourced hm with
  | untracked h =>
    have hfalse : b = false := by
      rcases h with ⟨value, rfl⟩ | ⟨op, operand, rfl⟩ | ⟨op, lhs, rhs, rfl⟩
        | huntracked |
        ⟨fields, hfields, field, hmem, hpath, huntracked⟩
      · exact Except.ok.inj
          (hb.symm.trans (tracked_of_isReference_eq_false htyped.1 htyped.2 halong))
      · exact Except.ok.inj
          (hb.symm.trans (tracked_of_isReference_eq_false htyped.1 htyped.2 halong))
      · exact Except.ok.inj
          (hb.symm.trans (tracked_of_isReference_eq_false htyped.1 htyped.2 halong))
      · cases b with
        | false => rfl
        | true => exact absurd (Declarations.tracked_of_typeAlong? halong hb huntracked) (by simp)
      · exact (hfield hfields hmem hpath).symm.trans huntracked
    subst hfalse
    rfl
  | read hfields hmem htracked hlookup =>
    cases hfield hfields hmem rfl
    rw [htracked] at hvariable ⊢
    exact (hvariable (.inr rfl) hexpr hlookup).2 rfl
  | named hmembers hmember hlookup =>
    have hanchored := (hknown .place b hW (.inl rfl)).1.coherent.bindings.lookup hlookup
    exact ⟨by rw [hanchored.slot]; rfl, hvariable (.inl rfl) hexpr hlookup⟩
  | resolved _ hhome hfields hmem htracked =>
    have hasked : position = .place ∨ b = true := by
      cases position with
      | place => exact .inl rfl
      | value => exact .inr ((hfield hfields hmem rfl).symm.trans (htracked rfl))
    rw [pointee?_eq_none (hknown position b hW hasked).1.off] at hhome
    cases hhome
  | fetched _ hfields hmem htracked | called hfields hmem htracked | joined hfields hmem htracked =>
    cases hfield hfields hmem rfl
    rw [htracked]
    rfl
  | @behind _ kind pointer fields field hreference hfields hmem =>
    cases hfield hfields hmem rfl
    refine ⟨hpointer rfl hreference, ?_⟩
    unfold Env.behind
    cases hfieldTracked : field.tracked <;> simp [Env.writtenAt, Lifetime.isNone, Lifetime.none]
  | member hflow hextent =>
    obtain ⟨targetNode, htarget, hmember⟩ := htyped
    exact hexact _ _ hflow _ _ hextent position targetNode ty b hW
      (huses (position, _) (by simp [Expr.uses])) (env_node_eq_ok_iff.2 htarget)
        ((Declarations.typeAlong?_single_append hmember).trans halong) hb
  | address hflow hwhole' hsome =>
    obtain ⟨targetNode, -, hty⟩ := htyped
    cases hwhole rfl (by rw [hty]; rfl)
    exact hsome
  | allocated =>
    obtain ⟨inner, hty⟩ := htyped
    cases hwhole rfl (by rw [hty]; rfl)
    rfl
  | inserted htracked hmem hflow hextent =>
    obtain ⟨value, hvalue, hmember⟩ := hlegible.literals _ _ _ hnode hexpr _ hmem
    have hvisits := huses (.value, _) (by simpa [Expr.uses, Expr.children] using ⟨_, hmem⟩)
    have hfound :=
      hexact _ _ hflow _ _ hextent .value value ty b hW hvisits (env_node_eq_ok_iff.2 hvalue)
      ((Declarations.typeAlong?_single_append hmember).symm.trans halong) hb
    cases b with
    | true => exact hfound
    | false =>
      rw [show _ = Extent.untracked from hfound]
      rfl
  | shared htracked hmembers hmem hpath =>
    have htrue : b = true := by
      rcases hpath with hpath | hpath
      · rw [hpath] at halong
        cases halong
        exact Except.ok.inj (hb.symm.trans htracked)
      · exact (hfield hmembers hmem rfl).symm.trans hpath
    subst htrue
    rfl
  | result hvoid hlast hflow hextent =>
    have hblock : BlockType X.env.owner.nodes _ task.node.ty := htyped
    rw [BlockType, hlast] at hblock
    obtain ⟨lastNode, hlastNode, hty⟩ := hblock
    have hvisits :=
      huses (.value, _) (by simpa [Expr.uses, Expr.children] using List.mem_of_getLast? hlast)
    exact hexact _ _ hflow _ _ hextent .value lastNode ty b hW hvisits
      (env_node_eq_ok_iff.2 hlastNode) (hty ▸ halong) hb

end Results

/-! ## Results at every point -/

/-- A node has one position, so that what it records is exact in all of them. -/
theorem Inside.exactExtents (hbuilt : WellBuilt X.env function)
    (hoff : X.env.options.resolveAliases = false)
    (hparameters : ∀ parameter ∈ X.parameters, parameter ∈ function.parameters)
    (hclosed : X.Closed) (hunique : X.Unique) (h : Inside X p s p' s') (hcoherent : Coherent s)
    (hs : TypedState X.env function base s) (hnone : ∀ id, s.flowAt id = none) :
    ∀ id flow, s'.flowAt id = some flow → (∃ position, X.visits position id) ∧
      ExactExtents X (fun _ _ => True) id flow.bundle := by
  have hlasts : Lasts X (fun _ s => Coherent s ∧ TypedState X.env function base s) fun _ s =>
      ∀ id flow, s.flowAt id = some flow → (∃ position, X.visits position id) ∧
        ExactExtents X (fun _ _ => True) id flow.bundle := by
    refine lasts_flows (fun _ h => h) fun {_ _ task _ _} hknown _ hs hresult _ =>
      ⟨⟨_, task.visited⟩, ?_⟩
    exact hresult.exactExtents hbuilt.typed hclosed (fun id flow hid => (hs id flow hid).2)
      hbuilt.wellTyped.legible
      hunique fun _ _ _ _ => ⟨⟨hoff, hknown.1, function, base, hbuilt, hknown.2⟩, trivial⟩
  exact (((lasts_coherent.and (lasts_typedState hbuilt hoff hparameters base)).and hlasts).inside h
    ⟨⟨hcoherent, hs⟩, by simp [hnone]⟩).2

/-- In a body that is a tree, where dereferences are not resolved, every node with a result has one
position, and has for each member of its type an extent with what the position and the type ask
for. -/
theorem exact_of_point {items : List Item} {assembly : Program.Assembly}
    (hitems : Program.ofItems items = .ok assembly) {owner : Owner}
    (howner : owner ∈ assembly.program.owners) {function : Function}
    (hkind : owner.kind = .function function) (hneat : owner.Neat assembly.declarations function)
    {ids : List NodeId} (hwalk : owner.walk = .ok ids) (hnodup : ids.Nodup) {options : Options}
    (hoff : options.resolveAliases = false) {context : Context} {s : State}
    (h : Point (.ofFunction assembly.declarations options owner function) function context s)
    {id : NodeId} {flow : NodeFlow} (hflow : s.flowAt id = some flow) {node : Node}
    (hnode : owner.nodes.get? id = some node) {members : List (Path × Ty)}
    (hmembers : assembly.declarations.members node.ty = .ok members) : ∃ position,
      (∀ position', Traverses (.ofFunction assembly.declarations options owner function)
        [function.body] position' id ↔ position' = position) ∧
      (∀ m, m ∈ flow.bundle ↔ m ∈ members.map Prod.fst) ∧
      ∀ m ty, (m, ty) ∈ members → ∃ extent b, flow.bundle[m]? = some extent ∧
        assembly.declarations.tracked ty = .ok b ∧ Exact position b extent := by
  have hbuilt := wellBuilt_ofFunction hitems howner hkind hneat options
  have hwalkFrom := (Owner.walk_eq hkind).symm.trans hwalk
  obtain ⟨p, hinside⟩ := h.inside
  have hunique : ∀ id position position',
      Traverses (.ofFunction assembly.declarations options owner function)
      [function.body] position id →
      Traverses (.ofFunction assembly.declarations options owner function) [function.body]
      position' id →
      position = position' := fun _ _ _ h h' => h.position_eq h' hwalkFrom hnodup
  obtain ⟨⟨position, hposition⟩, hexact⟩ := hinside.exactExtents hbuilt hoff (fun _ h => h)
    (closed_traverses _ _ _) hunique (coherent_start _ _) (typedState_start _ _)
      (flowAt_start _ _) id flow hflow
  obtain ⟨members', hmembers', hcomplete⟩ :=
    hinside.complete hbuilt.typed hbuilt.wellTyped (coherent_start _ _)
    (flowAt_start _ _) id flow hflow node (env_node_eq_ok_iff.2 hnode)
  cases hmembers.symm.trans hmembers'
  refine ⟨position,
    fun position' => ⟨fun h => hunique id _ _ h hposition, fun h => h ▸ hposition⟩, hcomplete,
    fun m ty hmem => ?_⟩
  obtain ⟨extent, hextent⟩ :=
    Option.isSome_iff_exists.1 (Std.ExtTreeMap.isSome_getElem?_iff_mem.2
    ((hcomplete m).2 (List.mem_map_of_mem hmem)))
  have hproper := hneat.nodes.proper id node hnode
  have halong := Declarations.typeAlong?_of_mem_members hproper.layered.distinct hmembers hmem
  obtain ⟨b, hb⟩ := (hproper.typeAlong? halong).exists_tracked
  exact ⟨extent, b, hextent, hb, hexact m extent hextent position node ty b trivial hposition
    (env_node_eq_ok_iff.2 hnode) halong hb⟩

/-- With `struct Inner { int* data; int size; }` and `struct Outer { Inner inner; }`, the function
`f(Outer o, Outer* q) { i = { o }; (*q).inner = i.inner }`. -/
def unwrapping : List Item := [
  .aggregate .struct "Inner" [⟨"data", .pointer .int, true⟩, ⟨"size", .int, true⟩],
  .aggregate .struct "Outer" [⟨"inner", .nominal (.ofString "Inner") .struct, true⟩],
  .function "f" [⟨"o", .nominal (.ofString "Outer") .struct, true⟩,
      ⟨"q", .pointer (.nominal (.ofString "Outer") .struct), true⟩] .void (.block [
    .declare "i" (.block [.var "o"]),
    .assign (.member (.dereference (.var "q")) "inner") (.member (.var "i") "inner")])]

/-- What is behind `q` is no variable, but each of its three members has a slot. -/
theorem exact_unwrapping : ∃ assembly owner function ids s flow node members,
    Program.ofItems unwrapping = .ok assembly ∧ owner ∈ assembly.program.owners ∧
    owner.kind = .function function ∧ owner.Neat assembly.declarations function ∧
    owner.walk = .ok ids ∧ ids.Nodup ∧
    PassesBy (.ofFunction assembly.declarations { resolveAliases := false } owner function)
    function .initial (.after ⟨8⟩) s ∧
    s.flowAt ⟨5⟩ = some flow ∧ owner.nodes.get? ⟨5⟩ = some node ∧
    assembly.declarations.members node.ty = .ok members ∧ members.length = 3 ∧
    ∃ position, (∀ position', Traverses
        (.ofFunction assembly.declarations { resolveAliases := false } owner function)
        [function.body] position' ⟨5⟩ ↔ position' = position) ∧
      (∀ m, m ∈ flow.bundle ↔ m ∈ members.map Prod.fst) ∧
      ∀ m ty, (m, ty) ∈ members → ∃ extent b, flow.bundle[m]? = some extent ∧
        assembly.declarations.tracked ty = .ok b ∧ Exact position b extent := by
  have h : PassesAt unwrapping { resolveAliases := false } (.after ⟨8⟩)
      fun assembly owner function s =>
      owner.LooksNeat assembly.declarations (fun path => if path = .ofString "Outer" then 1
        else 0) function ∧
      (∃ ids, owner.walk = .ok ids ∧ ids.Nodup) ∧
      (∃ flow, s.flowAt ⟨5⟩ = some flow ∧ 0 < flow.bundle.size) ∧
      ∃ node, owner.nodes.get? ⟨5⟩ = some node ∧ ∃ members,
        assembly.declarations.members node.ty = .ok members ∧ members.length = 3 := by
    decide +kernel
  obtain ⟨assembly, hitems, owner, howner, function, hkind, s, hpasses, hneat,
    ⟨ids, hwalk, hnodup⟩, ⟨flow, hflow, -⟩, node, hnode, members, hmembers, hlength⟩ := h
  exact ⟨assembly, owner, function, ids, s, flow, node, members, hitems, howner, hkind,
    hneat.neat, hwalk, hnodup, hpasses, hflow, hnode, hmembers, hlength,
    exact_of_point hitems howner hkind hneat.neat hwalk hnodup rfl (.passes hpasses) hflow
    hnode hmembers⟩

end Regions.Flow
