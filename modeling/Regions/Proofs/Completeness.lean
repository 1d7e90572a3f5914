import Regions.Proofs.Attestation
import Regions.Proofs.Drafting.Paths
import Regions.Proofs.Drafting.Types
import Regions.Proofs.Faults
import Regions.Proofs.Grounded
import Regions.Proofs.Walks

/-!
# Results are complete

An analysis that ends has a result for every node that the bodies reach, with an extent for each
member of the node's type and for nothing else. Nodes may be shared: what counts is that operands
come before the nodes that use them.

* `WellTyped`, `LaidOut`: types have layouts and match, and operands come first;
* `Covering`, `Result.covers`: what bundles say about the members of types, rule by rule;
* `Inside.complete`: all results are complete, in every state that is come by;
* `Attested.exists_walk`: the walk over a body that was analysed meets nodes with results only;
* `results_complete`: the theorem about programs, and with it the check at the end of an analysis.
-/

namespace Regions

open Std

variable {ty : Ty} {bundle : Bundle} {id : NodeId} {position : Position} {results : ProgramFlow}

namespace Flow

/-- Types have layouts, and the values in struct literals have the types of the members. -/
structure WellTyped (decls : Declarations) (nodes : Arena Node) : Prop where
  proper : ∀ id node, nodes.get? id = some node → decls.Proper node.ty
  literals : ∀ id node fields, nodes.get? id = some node → node.expr = .structLiteral fields →
    ∀ field ∈ fields, ∃ value, nodes.get? field.2 = some value ∧
      decls.memberType? node.ty field.1 = .ok (some value.ty)

/-- All members have names of their own, and the values in struct literals have the types of the
members. -/
structure Legible (decls : Declarations) (nodes : Arena Node) : Prop where
  distinct : ∀ id node, nodes.get? id = some node → decls.Distinct node.ty
  literals : ∀ id node fields, nodes.get? id = some node → node.expr = .structLiteral fields →
    ∀ field ∈ fields, ∃ value, nodes.get? field.2 = some value ∧
      decls.memberType? node.ty field.1 = .ok (some value.ty)

theorem WellTyped.legible {decls : Declarations} {nodes : Arena Node} (h : WellTyped decls nodes) :
    Legible decls nodes :=
  ⟨fun id node hnode => (h.proper id node hnode).layered.distinct, h.literals⟩

/-- Operands come before the nodes that use them. -/
structure LaidOut (decls : Declarations) (nodes : Arena Node) :
    Prop extends WellTyped decls nodes where
  ordered : ∀ id node, nodes.get? id = some node →
    ∀ child ∈ node.expr.children, child.index < id.index

end Flow

/-- The body of a function that is laid out, with parameters whose types have layouts. -/
structure Owner.LaidOut (decls : Declarations) (owner : Owner) (function : Function) : Prop where
  nodes : Flow.LaidOut decls owner.nodes
  parameters : ∀ parameter ∈ function.parameters, decls.Proper parameter.ty

instance decidableForallStructLiteral {expr : Expr} {P : List (String × NodeId) → Prop}
    [∀ fields, Decidable (P fields)] :
    Decidable (∀ fields, expr = .structLiteral fields → P fields) := by
  induction expr using Expr.casesOn with
  | structLiteral fields =>
    exact decidable_of_iff (P fields)
      ⟨fun h _ heq => Expr.structLiteral.inj heq ▸ h, fun h => h fields rfl⟩
  | _ => exact .isTrue nofun

/-- The aggregates are ranked, the types are declared, and operands come before the nodes that use
them. -/
def Owner.LaysOut (decls : Declarations) (rank : Path → Nat) (owner : Owner)
    (function : Function) : Prop :=
  decls.Ranked rank ∧ (∀ parameter ∈ function.parameters, ∀ path,
    parameter.ty.aggregate? = some path → path ∈ decls.aggregates) ∧
  ∀ id node, owner.nodes.get? id = some node →
    (∀ child ∈ node.expr.children, child.index < id.index) ∧
    (∀ path, node.ty.aggregate? = some path → path ∈ decls.aggregates) ∧
    ∀ fields, node.expr = .structLiteral fields → ∀ field ∈ fields, ∃ value,
      owner.nodes.get? field.2 = some value ∧
      decls.memberType? node.ty field.1 = .ok (some value.ty)

section LaysOut

variable {decls : Declarations} {rank : Path → Nat} {owner : Owner} {function : Function}

instance : Decidable (owner.LaysOut decls rank function) := by
  delta Owner.LaysOut
  infer_instance

theorem Owner.LaysOut.laidOut (h : owner.LaysOut decls rank function) :
    owner.LaidOut decls function := by
  obtain ⟨hranked, hparameters, hnodes⟩ := h
  exact {
    nodes := {
      proper :=
        fun id node hnode => Declarations.proper_of_ranked hranked (hnodes id node hnode).2.1
      literals := fun id node fields hnode => (hnodes id node hnode).2.2 fields
      ordered := fun id node hnode => (hnodes id node hnode).1 }
    parameters :=
      fun parameter hmem => Declarations.proper_of_ranked hranked (hparameters parameter hmem) }

end LaysOut

namespace Flow

variable {X : Setting} {p p' : Progress X} {s s' : State} {env : Env}

/-! ## Extents for all members -/

theorem map_fst_of_forall₂ {α β : Type} {path : α → Path} {xs : List α}
    {entries : List (Path × β)}
    (h : List.Forall₂ (fun x (entry : Path × β) => entry.1 = path x) xs entries) :
    entries.map Prod.fst = xs.map path := by
  induction h with
  | nil => rfl
  | cons heq _ ih => rw [List.map_cons, List.map_cons, heq, ih]

theorem complete_untracked (h : untrackedBundle env ty = .ok bundle) :
    bundle.Complete env.declarations ty := by
  obtain ⟨members, hmembers, hbundle⟩ := except_bind_eq_ok h
  cases hbundle
  exact Bundle.complete_ofList hmembers (by simp)

theorem Accessed.complete {kind : String} {pointer : Extent} {fields : List Field}
    (hfields : env.fields ty = .ok fields)
    (h : Accessed env s id kind pointer fields position bundle) :
    bundle.Complete env.declarations ty := by
  cases h with
  | resolved haccess hhome hbundle =>
    obtain ⟨entries, hentries, hbundle⟩ := Option.bind_eq_some_iff.1 hbundle
    cases hbundle
    refine Bundle.complete_of_fields hfields (map_fst_of_forall₂ ?_)
    refine (forall₂_of_mapM_some hentries).imp fun field entry hentry => ?_
    obtain ⟨extent, -, hentry⟩ := Option.bind_eq_some_iff.1 hentry
    cases hentry
    rfl
  | read | written => exact Bundle.complete_of_fields hfields (by simp)

/-- A struct literal has what is given, and an extent for each member besides. -/
theorem mem_defaults_iff {whole : Lifetime} {fields : List Field} {given : Bundle} {path : Path} :
    path ∈ fields.foldl
    (fun bundle field => bundle.insertIfNew field.path (defaultExtent whole field)) given ↔
      path ∈ given ∨ path ∈ fields.map Field.path := by
  induction fields generalizing given with
  | nil => simp
  | cons field fields ih =>
    rw [List.foldl_cons, ih, ExtTreeMap.mem_insertIfNew, Std.compare_eq_iff_eq, List.map_cons,
      List.mem_cons]
    grind

/-- A struct literal gives nothing but extents of members if its fields do. -/
theorem complete_literal (hproper : env.declarations.Proper ty) {members : List Field}
    (hmembers : env.declarations.fields ty = .ok members) {entries : List (Path × Extent)}
    {whole : Lifetime}
    (hentries : ∀ entry ∈ entries, ∃ name inner p, entry.1 = Path.single name ++ p ∧
      env.declarations.memberType? ty name = .ok (some inner) ∧
      ∃ found, env.declarations.members inner = .ok found ∧ p ∈ found.map Prod.fst) :
    Bundle.Complete env.declarations (members.foldl (fun bundle field =>
      bundle.insertIfNew field.path (defaultExtent whole field)) (.ofList entries compare)) ty := by
  obtain ⟨found, hfound, hpaths⟩ := Declarations.map_path_of_fields hmembers
  refine ⟨found, hfound, fun path => ?_⟩
  rw [mem_defaults_iff, hpaths]
  refine ⟨fun hpath => hpath.elim (fun hgiven => ?_) (fun hmember => hmember), .inr⟩
  rw [ExtTreeMap.mem_ofList, List.contains_iff_mem] at hgiven
  obtain ⟨entry, hentry, rfl⟩ := List.mem_map.1 hgiven
  obtain ⟨name, inner, p, hpath, hmember, below, hbelow, hp⟩ := hentries entry hentry
  obtain ⟨hinner, -⟩ := hproper.memberType? hmember
  obtain ⟨-, hsome⟩ := (Declarations.mem_members_iff hinner hbelow).1 hp
  rw [Declarations.mem_members_iff hproper hfound, hpath]
  refine ⟨?_, ?_⟩
  · obtain ⟨outer, -, -, houter, -⟩ := Declarations.memberType?_eq_some_iff.1 hmember
    cases ty <;> first | rfl | cases houter
  · change (env.declarations.typeAlong? ty (name :: p.segments)).isSome = true
    simpa [Declarations.typeAlong?, hmember] using hsome

/-- A property of bundles and types that complete bundles have, and that members inherit, where all
types are such that `P`. -/
structure Covering (decls : Declarations) (P : Ty → Prop) (C : Bundle → Ty → Prop) :
    Prop where
  complete : ∀ bundle ty, P ty → bundle.Complete decls ty → C bundle ty
  scopedTo : ∀ bundle ty inner name, C bundle ty → P ty →
    decls.memberType? ty name = .ok (some inner) → C (bundle.scopedTo (.single name)) inner

theorem covering_complete (decls : Declarations) :
    Covering decls decls.Proper (Bundle.Complete decls) where
  complete _ _ _ h := h
  scopedTo _ _ _ _ h hproper hmember := h.scopedTo hproper hmember

/-- What the rule of a node records has such a property if what its operands have does. Only struct
literals need an argument of their own. -/
theorem Result.covers {P : Ty → Prop} {C : Bundle → Ty → Prop}
    (hC : Covering env.declarations P C) (htypes : TypedNodes env.declarations env.owner.nodes)
    (hP : ∀ id node, env.owner.nodes.get? id = some node → P node.ty) {node : Node}
    (hnode : env.node id = .ok node) (hresult : Result env s id node.ty position node.expr bundle)
    (hoperands : ∀ child flow, s.flowAt child = some flow →
      ∀ childNode, env.node child = .ok childNode → C flow.bundle childNode.ty)
    (hliteral : ∀ fields entries members, node.expr = .structLiteral fields →
      env.fields node.ty = .ok members → FieldParts s fields entries →
      C (members.foldl (fun bundle field => bundle.insertIfNew field.path
        (defaultExtent (env.literalAt id) field)) (.ofList entries.flatten compare)) node.ty) :
    C bundle node.ty := by
  have htyped := htypes id node (env_node_eq_ok_iff.1 hnode)
  generalize hexpr : node.expr = expr at hresult htyped hliteral
  have hwhole : bundle.Complete env.declarations node.ty → C bundle node.ty :=
    hC.complete _ _ (hP id node (env_node_eq_ok_iff.1 hnode))
  have hmember : ∀ {target name}, expr = .memberAccess target name → (∃ flow members,
      s.flowAt target = some flow ∧ bundle = flow.bundle.scopedTo (.single name) ∧
        bundle.whole?.isNone = false ∧ env.declarations.members node.ty = .ok members ∧
        bundle.size = members.length) → C bundle node.ty := by
    rintro target name rfl ⟨flow, members, hflow, rfl, -⟩
    obtain ⟨targetNode, htarget, hmember⟩ := htyped
    exact hC.scopedTo _ _ _ _
      (hoperands target flow hflow targetNode (env_node_eq_ok_iff.2 htarget))
      (hP target targetNode htarget) hmember
  have hempty : node.ty = .void → bundle = ∅ → C bundle node.ty := by
    rintro hvoid rfl
    apply hwhole
    rw [hvoid]
    exact Bundle.complete_empty
  cases position with
  | value =>
    cases expr with
    | literal _ | unary _ _ | binary _ _ _ => exact hwhole (complete_untracked hresult)
    | var path =>
      obtain ⟨fields, hfields, entries, hentries, rfl⟩ := hresult
      exact hwhole
        (Bundle.complete_of_fields hfields (map_fst_of_forall₂ (hentries.imp fun _ _ h => h.1)))
    | addressOf target =>
      obtain ⟨flow, extent, -, -, -, -, rfl⟩ := hresult
      obtain ⟨targetNode, -, hty⟩ := htyped
      exact hwhole (Bundle.complete_reference (by rw [hty]; rfl))
    | dereference target | index target subscript =>
      obtain ⟨kind, pointer, fields, -, hfields, haccessed⟩ := hresult
      exact hwhole (haccessed.complete hfields)
    | memberAccess target name => exact hmember rfl hresult
    | new initializer =>
      obtain ⟨rfl, -⟩ := hresult
      obtain ⟨inner, hty⟩ := htyped
      exact hwhole (Bundle.complete_reference (by rw [hty]; rfl))
    | structLiteral fields =>
      rcases hresult with ⟨-, hbundle⟩ | ⟨-, entries, members, hmembers, hentries, rfl, -⟩
      · exact hwhole (complete_untracked hbundle)
      · exact hliteral fields entries members rfl hmembers hentries
    | call callee arguments =>
      obtain ⟨fields, hfields, rfl, -⟩ := hresult
      exact hwhole (Bundle.complete_of_fields hfields (by simp))
    | block statements =>
      rcases hresult with ⟨hnone, hbundle⟩ | ⟨-, last, flow, hlast, hflow, rfl⟩
      · refine hempty ?_ hbundle
        rcases hnone with hvoid | rfl
        · cases hty : node.ty <;> simp_all [Ty.isVoid]
        · exact htyped
      · have hblock : BlockType env.owner.nodes statements node.ty := htyped
        rw [BlockType, hlast] at hblock
        obtain ⟨lastNode, hlastNode, hty⟩ := hblock
        exact hty ▸ hoperands last flow hflow lastNode (env_node_eq_ok_iff.2 hlastNode)
    | cond condition positive negative =>
      rcases hresult with ⟨hnone, hbundle⟩ | ⟨-, fields, hfields, rfl⟩
      · refine hempty ?_ hbundle
        rcases hnone with hvoid | hnone
        · cases hty : node.ty <;> simp_all [Ty.isVoid]
        · exact htyped hnone
      · exact hwhole (Bundle.complete_of_fields hfields (by simp))
    | declaration path value => exact hempty htyped hresult.1
    | assignment target value => exact hempty htyped.1 hresult
    | loop condition body => exact hempty htyped hresult
    | breakLoop => exact hempty htyped hresult
    | continueLoop => exact hempty htyped hresult
  | place =>
    cases expr with
    | var path =>
      obtain ⟨members, hmembers, entries, hentries, rfl⟩ := hresult
      exact hwhole
        (Bundle.complete_ofList hmembers (map_fst_of_forall₂ (hentries.imp fun _ _ h => h.1)))
    | dereference target | index target subscript =>
      obtain ⟨kind, pointer, fields, -, hfields, haccessed⟩ := hresult
      exact hwhole (haccessed.complete hfields)
    | memberAccess target name => exact hmember rfl hresult
    | _ => exact hresult.elim

theorem Result.complete (htypes : TypedNodes env.declarations env.owner.nodes)
    (hwell : WellTyped env.declarations env.owner.nodes) {node : Node}
    (hnode : env.node id = .ok node) (hresult : Result env s id node.ty position node.expr bundle)
    (hoperands : ∀ child flow, s.flowAt child = some flow →
      ∀ childNode, env.node child = .ok childNode →
      flow.bundle.Complete env.declarations childNode.ty) :
    bundle.Complete env.declarations node.ty := by
  have hfound := env_node_eq_ok_iff.1 hnode
  refine hresult.covers (covering_complete _) htypes hwell.proper hnode hoperands
    fun fields entries members hexpr hmembers hentries => ?_
  refine complete_literal (hwell.proper id node hfound) hmembers fun entry hentry => ?_
  obtain ⟨part, hpart, hmem⟩ := List.mem_flatten.1 hentry
  obtain ⟨field, hfield, flow, hflow, rfl⟩ := forall₂_mem_right hentries hpart
  obtain ⟨⟨n, found⟩, hn, rfl⟩ := List.mem_map.1 hmem
  obtain ⟨value, hvalue, hmember⟩ := hwell.literals id node fields hfound hexpr field hfield
  obtain ⟨below, hbelow, hkeys⟩ :=
    hoperands field.2 flow hflow value (env_node_eq_ok_iff.2 hvalue)
  refine ⟨field.1, value.ty, n, rfl, hmember, below, hbelow, (hkeys n).1 ?_⟩
  exact ExtTreeMap.mem_iff_isSome_getElem?.2
    (by rw [ExtTreeMap.mem_toList_iff_getElem?_eq_some.1 hn]; rfl)

theorem Inside.complete (htypes : TypedNodes X.env.declarations X.env.owner.nodes)
    (hwell : WellTyped X.env.declarations X.env.owner.nodes) (h : Inside X p s p' s')
    (hcoherent : Coherent s) (hs : ∀ id, s.flowAt id = none) :
    ∀ id flow, s'.flowAt id = some flow → ∀ node, X.env.node id = .ok node →
      flow.bundle.Complete X.env.declarations node.ty := by
  refine h.flows (F := fun id bundle => ∀ node, X.env.node id = .ok node →
    bundle.Complete X.env.declarations node.ty) (fun s task bundle _ hs hresult node hnode =>
    ?_) hcoherent (by simp [hs])
  cases hnode.symm.trans task.found
  exact hresult.complete htypes hwell task.found hs

/-! ## Walks over bodies that were analysed -/

/-- What the rule of a node records, it records with results for all operands. -/
theorem Result.exists_use {child : NodeId} {expr : Expr}
    (h : Result env s id ty position expr bundle) (hchild : child ∈ expr.children) :
    ∃ use ∈ expr.uses position, use.2 = child := by
  cases position <;> cases expr <;>
    first
      | exact h.elim
      | (simp [Expr.children] at hchild; done)
      | simpa [Expr.uses, Expr.children, eq_comm] using hchild

/-- The nodes with results are closed under operands, so that a walk meets no others. -/
theorem exists_walk_of_attested (h : ∀ id flow, s.flowAt id = some flow → Attested X s id flow)
    (hordered : ∀ id node, X.env.owner.nodes.get? id = some node →
      ∀ child ∈ node.expr.children, child.index < id.index) {function : Function}
    (hkind : X.env.owner.kind = .function function) (hbody : s.flowAt function.body ≠ none) :
    ∃ ids, X.env.owner.walk = .ok ids ∧
      ∀ id ∈ ids, s.flowAt id ≠ none ∧ ∃ node, X.env.owner.nodes.get? id = some node := by
  have hfound : ∀ id, s.flowAt id ≠ none → ∃ node, X.env.owner.nodes.get? id = some node ∧
      ∀ child ∈ node.expr.children, s.flowAt child ≠ none := by
    intro id hid
    obtain ⟨flow, hflow⟩ := Option.ne_none_iff_exists'.1 hid
    obtain ⟨task, s₀, rfl, -, hgrows, hresult, -, hoperands⟩ := h id flow hflow
    refine ⟨task.node, env_node_eq_ok_iff.1 task.found, fun child hchild => ?_⟩
    obtain ⟨use, huse, rfl⟩ := hresult.exists_use hchild
    exact hgrows.recorded_ne_none (hoperands use huse)
  have hgrounded : Grounded X.env.owner.nodes fun id => s.flowAt id ≠ none := by
    intro id hid
    obtain ⟨node, hnode, hchildren⟩ := hfound id hid
    exact ⟨node, hnode,
      fun child hchild => ⟨hchildren child hchild, hordered id node hnode child hchild⟩⟩
  obtain ⟨node, hnode, -⟩ := hfound _ hbody
  have hdepth : function.body.index < X.env.owner.depth := Nat.lt_succ_of_lt (index_lt_size hnode)
  obtain ⟨ids, hids, hall⟩ := hgrounded.exists_walkFrom hbody hdepth
  refine ⟨ids, by rw [Owner.walk, hkind]; exact hids, fun id hid => ⟨hall id hid, ?_⟩⟩
  obtain ⟨node, hnode, -⟩ := hfound id (hall id hid)
  exact ⟨node, hnode⟩

/-! ## The check at the end -/

variable {decls : Declarations} {options : Options} {owner : Owner} {function : Function}

theorem isComplete_of_complete {ref : NodeRef} {flow : NodeFlow}
    (hflow : results.flow? ref = some flow) (hcomplete : flow.bundle.Complete decls ty) :
    results.isComplete decls ref ty = .ok true := by
  obtain ⟨members, hmembers, hpaths⟩ := hcomplete
  have hkeys : flow.bundle.keys = (ExtTreeSet.ofList (members.map Prod.fst)).toList := by
    have hkeys := ExtTreeMap.ordered_keys (t := flow.bundle)
    have hlist := ExtTreeSet.ordered_toList (t := ExtTreeSet.ofList (members.map Prod.fst))
    have hnodup : (ExtTreeSet.ofList (members.map Prod.fst)).toList.Nodup := by
      refine hlist.imp fun {a b} hlt heq => ?_
      subst heq
      simp at hlt
    refine List.Perm.eq_of_pairwise ?_ hkeys hlist
      ((List.perm_ext_iff_of_nodup ExtTreeMap.nodup_keys hnodup).2 fun path => ?_)
    · exact fun a b _ _ hab hba => (Std.OrientedCmp.not_lt_of_lt hab hba).elim
    · rw [ExtTreeMap.mem_keys, ExtTreeSet.mem_toList, ExtTreeSet.mem_ofList, hpaths path,
        List.contains_iff_mem]
  simp only [ProgramFlow.isComplete, hflow, hmembers, bind, Except.bind, pure, Except.pure, hkeys,
    decide_true]

/-- The check finds nothing if all nodes on the walks have complete bundles. -/
theorem incomplete_eq_nil {program : Program}
    (h : ∀ owner ∈ program.owners, ∃ ids, owner.walk = .ok ids ∧ ∀ id ∈ ids,
      ∃ node flow, owner.node id = .ok node ∧ results.flow? (owner.ref id) = some flow ∧
        flow.bundle.Complete decls node.ty) : results.incomplete program decls = .ok [] := by
  obtain ⟨walks, hwalks⟩ : ∃ walks, program.walk = .ok walks := by
    refine mapM_ok_of_forall fun owner howner => ?_
    obtain ⟨ids, hids, -⟩ := h owner (Array.mem_toList_iff.1 howner)
    exact ⟨(owner, ids), by rw [hids]; rfl⟩
  -- Each node on a walk passes.
  have hpass : ∀ walk ∈ walks, ∀ id ∈ walk.2, (do
      let ref := walk.1.ref id
      let node ← walk.1.node id
      return if ← results.isComplete decls ref node.ty then none else some ref :
        Except Fault (Option NodeRef)) = .ok none := by
    intro walk hwalk id hid
    obtain ⟨owner, howner, hfound⟩ := forall₂_mem_right (forall₂_of_mapM_ok hwalks) hwalk
    obtain ⟨ids, hids, hall⟩ := h owner (Array.mem_toList_iff.1 howner)
    rw [hids] at hfound
    cases hfound
    obtain ⟨node, flow, hnode, hflow, hcomplete⟩ := hall id hid
    simp only [hnode, isComplete_of_complete hflow hcomplete, bind, Except.bind, pure,
      Except.pure, if_pos]
  obtain ⟨found, hfound⟩ := mapM_ok_of_forall fun walk hwalk =>
    filterMapM_ok_of_forall fun id hid => ⟨none, hpass walk hwalk id hid⟩
  have hempty : ∀ refs ∈ found, refs = [] := by
    intro refs hrefs
    obtain ⟨walk, hwalk, heq⟩ := forall₂_mem_right (forall₂_of_mapM_ok hfound) hrefs
    refine List.eq_nil_iff_forall_not_mem.2 fun ref href => ?_
    obtain ⟨id, hid, hsome⟩ := exists_of_mem_filterMapM_ok heq href
    cases (hpass walk hwalk id hid).symm.trans hsome
  have hall : results.incomplete program decls = .ok found.flatten := by
    unfold ProgramFlow.incomplete
    rw [hwalks]
    exact congrArg
      (fun result : Except Fault (List (List NodeRef)) => do return (← result).flatten) hfound
  rw [hall, List.flatten_eq_nil_iff.2 hempty]

/-! ## Programs -/

/-- Where members are counted, there are as many extents. -/
theorem runFunction_ne_memberCount (htypes : TypedNodes decls owner.nodes)
    (hwell : WellTyped decls owner.nodes) (context : Context) (id : NodeId) :
    runFunction decls options context owner function ≠ .error (.fault (.memberCount id)) := by
  intro hfault
  obtain ⟨s, habort⟩ := exists_of_runFunction hfault
  have htraces :=
    passes_through (.ofFunction decls options owner function) function (p := ⟨none, []⟩) rfl
    (.refl _ (.start context owner.nodes.size))
  rw [show _ = _ from habort] at htraces
  obtain ⟨p, hinside, hstops⟩ := htraces
  obtain ⟨task, target, name, flow, members, hexpr, hflow, hmembers, hsize⟩ :=
    (hstops.fault _ rfl).memberCount
  have htyped := htypes task.id task.node (env_node_eq_ok_iff.1 task.found)
  rw [hexpr] at htyped
  obtain ⟨targetNode, htarget, hmember⟩ := htyped
  have hcomplete :=
    hinside.complete htypes hwell (coherent_start _ _) (flowAt_start _ _) target flow hflow
    targetNode (env_node_eq_ok_iff.2 htarget)
  have hproper := hwell.proper task.id task.node (env_node_eq_ok_iff.1 task.found)
  exact hsize
    ((hcomplete.scopedTo (hwell.proper target targetNode htarget) hmember).size_eq hproper hmembers)

/-- Where the analysis of a function has ended, the walk over its body meets nodes with complete
results. -/
theorem exists_walk_of_runs (htypes : TypedNodes decls owner.nodes)
    (hlaid : LaidOut decls owner.nodes) (hkind : owner.kind = .function function)
    {context : Context} {s : State} (hrun : RunsOwner decls options owner function context s) :
    ∃ ids, owner.walk = .ok ids ∧
    ∀ id ∈ ids, ∃ node flow, owner.nodes.get? id = some node ∧
      s.flowAt id = some flow ∧ flow.bundle.Complete decls node.ty := by
  obtain ⟨p, ⟨-, hbody⟩, hsteps⟩ :=
    (passes_through (.ofFunction decls options owner function) function
    (p := ⟨none, []⟩) rfl).exists_steps hrun
  have hinside := Inside.here hsteps
  have hcoherent := coherent_start context owner.nodes.size
  obtain ⟨ids, hids, hall⟩ := exists_walk_of_attested
    (hinside.attested hcoherent rfl (by simp [flowAt_start])) hlaid.ordered hkind hbody
  refine ⟨ids, hids, fun id hid => ?_⟩
  obtain ⟨hsome, node, hnode⟩ := hall id hid
  obtain ⟨flow, hflow⟩ := Option.ne_none_iff_exists'.1 hsome
  exact ⟨node, flow, hnode, hflow, hinside.complete htypes hlaid.toWellTyped hcoherent
    (flowAt_start _ _) id flow hflow node (env_node_eq_ok_iff.2 hnode)⟩

/-- Where all functions were analysed, the walks over the bodies meet nodes with complete
results. -/
theorem exists_walk_of_foldlM {items : List Item} {assembly : Program.Assembly}
    (h : Program.ofItems items = .ok assembly)
    (hlaid : ∀ owner ∈ assembly.program.owners, ∀ function,
      owner.kind = .function function → Flow.LaidOut assembly.declarations owner.nodes)
    (hresults : assembly.program.owners.toList.foldlM (analyzeOwner assembly.declarations options)
      { owners := ∅, context := .initial } = .ok results) :
    ∀ owner ∈ assembly.program.owners, ∃ ids, owner.walk = .ok ids ∧ ∀ id ∈ ids,
      ∃ node flow, owner.node id = .ok node ∧ results.flow? (owner.ref id) = some flow ∧
        flow.bundle.Complete assembly.declarations node.ty := by
  intro owner howner
  cases hkind : owner.kind with
  | aggregate layout path => exact ⟨[], by rw [Owner.walk, hkind], by simp⟩
  | function function =>
    obtain ⟨context, s', hrun, hrecorded⟩ := recorded_of_foldlM (Program.nodup_ids h)
      (Array.mem_toList_iff.2 howner) hkind hresults
    obtain ⟨ids, hids, hall⟩ := exists_walk_of_runs (Program.typed_ofItems h howner hkind)
      (hlaid owner howner function hkind) hkind hrun
    refine ⟨ids, hids, fun id hid => ?_⟩
    obtain ⟨node, found, hnode, hfound, hcomplete⟩ := hall id hid
    refine ⟨node, found, by rw [Owner.node, hnode], ?_, hcomplete⟩
    simp only [ProgramFlow.flow?, Owner.ref, hrecorded]
    rw [State.flowAt_eq_some_iff] at hfound
    simp [hfound]

/-- An analysis that comes to its end passes the check there. -/
theorem analyze_eq_ok {program : Program}
    (hresults : program.owners.toList.foldlM (analyzeOwner decls options)
      { owners := ∅, context := .initial } =
      .ok results) (hincomplete : results.incomplete program decls = .ok []) :
    analyze program decls options = .ok results := by
  simp only [analyze, hresults, hincomplete, orFault, bind, Except.bind, Except.mapError]
  rfl

/-- No bundle of a member ever has the wrong size. If the analysis of every function succeeds, the
walk over each body succeeds and meets the nodes that can be reached from the body. Each of them has
a result with an extent for each member of the node's type and for nothing else; so the check at the
end finds nothing. -/
theorem results_complete {items : List Item} {assembly : Program.Assembly}
    (h : Program.ofItems items = .ok assembly)
    (hlaid : ∀ owner ∈ assembly.program.owners, ∀ function,
      owner.kind = .function function →
      owner.LaidOut assembly.declarations function) (options : Options) :
    (∀ owner ∈ assembly.program.owners, ∀ function, owner.kind = .function function →
      ∀ context id, runFunction assembly.declarations options context owner function ≠
        .error (.fault (.memberCount id))) ∧
    ∀ results, assembly.program.owners.toList.foldlM (analyzeOwner assembly.declarations options)
        { owners := ∅, context := .initial } = .ok results →
      (∀ owner ∈ assembly.program.owners, ∃ ids, owner.walk = .ok ids ∧
        (∀ function, owner.kind = .function function →
          ∀ id, id ∈ ids ↔ owner.Descends function.body id) ∧
        ∀ id ∈ ids, ∃ node flow members, owner.node id = .ok node ∧
          results.flow? (owner.ref id) = some flow ∧
          assembly.declarations.members node.ty = .ok members ∧
          ∀ path, path ∈ flow.bundle ↔ path ∈ members.map Prod.fst) ∧
      results.incomplete assembly.program assembly.declarations = .ok [] ∧
      analyze assembly.program assembly.declarations options = .ok results := by
  refine ⟨fun owner howner function hkind context id => ?_, fun results hresults => ?_⟩
  · exact runFunction_ne_memberCount (Program.typed_ofItems h howner hkind)
      (hlaid owner howner function hkind).nodes.toWellTyped context id
  · have hwalks := exists_walk_of_foldlM h
      (fun owner howner function hkind => (hlaid owner howner function hkind).nodes) hresults
    have hincomplete := incomplete_eq_nil hwalks
    refine ⟨fun owner howner => ?_, hincomplete, analyze_eq_ok hresults hincomplete⟩
    obtain ⟨ids, hids, hall⟩ := hwalks owner howner
    refine ⟨ids, hids, fun function hkind id => ?_, fun id hid => ?_⟩
    · rw [Owner.walk, hkind] at hids
      exact Owner.mem_walkFrom_iff hids
    · obtain ⟨node, flow, hnode, hflow, members, hmembers, hpaths⟩ := hall id hid
      exact ⟨node, flow, members, hnode, hflow, hmembers, hpaths⟩

/-- With `struct Inner { int* data; int size; }` and `struct Outer { Inner inner; }`, the function
`f(Outer o) { i = o.inner; w = Outer { inner: <the same o.inner> }; while true { i = w.inner; };
}`. -/
def rewrapping : List Item := [
  .aggregate .struct "Inner" [⟨"data", .pointer .int, true⟩, ⟨"size", .int, true⟩],
  .aggregate .struct "Outer" [⟨"inner", .nominal (.ofString "Inner") .struct, true⟩],
  .function "f" [⟨"o", .nominal (.ofString "Outer") .struct, true⟩] .void (.block [
    .declare "i" (.labelled "inner" (.member (.var "o") "inner")),
    .declare "w" (.record (.nominal (.ofString "Outer") .struct) [("inner", .shared "inner")]),
    .loop (.literal (.bool true)) (.assign (.var "i") (.member (.var "w") "inner"))])]

/-- The body of `f` uses a node twice, and all its nodes get a complete result. -/
theorem results_complete_rewrapping : ∃ assembly results owner function ids,
    Program.ofItems rewrapping = .ok assembly ∧ owner ∈ assembly.program.owners ∧
    owner.kind = .function function ∧ owner.LaidOut assembly.declarations function ∧
    owner.walk = .ok ids ∧ ¬ ids.Nodup ∧
    assembly.program.owners.toList.foldlM (analyzeOwner assembly.declarations {})
      { owners := ∅, context := .initial } = .ok results ∧
    results.incomplete assembly.program assembly.declarations = .ok [] ∧
    analyze assembly.program assembly.declarations {} = .ok results := by
  have h : ∃ assembly, Program.ofItems rewrapping = .ok assembly ∧
      ∃ owner ∈ assembly.program.owners, assembly.program.Only owner ∧
      ∃ function, owner.kind = .function function ∧
        owner.LaysOut assembly.declarations (fun path => if path = .ofString "Outer" then 1
        else 0) function ∧
      ∃ results, assembly.program.owners.toList.foldlM (analyzeOwner assembly.declarations {})
        { owners := ∅, context := .initial } = .ok results ∧ ∃ ids, owner.walk = .ok ids ∧
            ¬ ids.Nodup := by
    decide +kernel
  obtain ⟨assembly, hitems, owner, howner, honly, function, hkind, hlays, results, hresults, ids,
    hids, htwice⟩ := h
  obtain ⟨-, hcomplete⟩ := results_complete hitems (fun other hother f hf => by
    obtain rfl := honly.eq_of_function hother hf
    cases hkind.symm.trans hf
    exact hlays.laidOut) {}
  obtain ⟨-, hincomplete, hanalyze⟩ := hcomplete results hresults
  exact ⟨assembly, results, owner, function, ids, hitems, howner, hkind, hlays.laidOut, hids,
    htwice, hresults, hincomplete, hanalyze⟩

end Flow
end Regions
