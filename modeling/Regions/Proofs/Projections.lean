import Regions.Proofs.Extents

/-!
# Projections of struct literals

Reading a member of a struct literal gives back what the field was given, without the storage that
it came from. The literal itself, if its type carries references, holds the data of all its fields.

* `Bundle.Fills`: a bundle has an extent for each member of a type;
* `Inside.fills`: results do, whatever is put into literals;
* `MadeUpTo`: what results are made of comes from the nodes below;
* `TypedLiteral`: a literal with distinct fields, whose values have the types of the members;
* `projection_of_literal`: the members of a literal, and what it holds.
-/

namespace Regions

open Std

variable {id : NodeId} {rank : NodeId → Nat} {ty : Ty} {bundle : Bundle}
  {fields : List (String × NodeId)} {flow : NodeFlow}

/-! ## An extent for each member -/

/-- The bundle has an extent for each member of the type, and maybe others. -/
def Bundle.Fills (decls : Declarations) (bundle : Bundle) (ty : Ty) : Prop :=
  ∀ members, decls.members ty = .ok members → ∀ path ∈ members.map Prod.fst, path ∈ bundle

/-- The bundle with the data of each extent, without the storage. -/
def Bundle.asValues (bundle : Bundle) : Bundle := bundle.map fun _ extent => .ofValue extent.value

namespace Flow

variable {X : Setting} {p p' : Progress X} {s s' : State} {env : Env}

theorem covering_fills (decls : Declarations) :
    Covering decls decls.Proper (Bundle.Fills decls) where
  complete := by
    rintro bundle ty - ⟨members, hmembers, hpaths⟩ members' hmembers' path hpath
    cases hmembers.symm.trans hmembers'
    exact (hpaths path).2 hpath
  scopedTo := by
    intro bundle ty inner name hfills hproper hmember innerMembers hinner path hpath
    obtain ⟨members, hmembers⟩ := hproper.exists_members
    refine Bundle.mem_scopedTo_iff.2 (hfills members hmembers _ ?_)
    exact (Declarations.single_append_mem_members_iff hproper hmember hmembers hinner).2 hpath

/-- All results have an extent for each member, whatever the fields of struct literals are given. -/
theorem Inside.fills (htypes : TypedNodes X.env.declarations X.env.owner.nodes)
    (hproper : ∀ id node, X.env.owner.nodes.get? id = some node →
      X.env.declarations.Proper node.ty)
    (h : Inside X p s p' s') (hcoherent : Coherent s) (hs : ∀ id, s.flowAt id = none) :
    ∀ id flow, s'.flowAt id = some flow → ∀ node, X.env.node id = .ok node →
      flow.bundle.Fills X.env.declarations node.ty := by
  refine h.flows (F := fun id bundle => ∀ node, X.env.node id = .ok node →
    bundle.Fills X.env.declarations node.ty) (fun s task bundle _ hs hresult node hnode =>
    ?_) hcoherent (by simp [hs])
  cases hnode.symm.trans task.found
  refine hresult.covers (covering_fills _) htypes hproper task.found hs ?_
  -- A literal has a default for each member that no field gives.
  intro fields entries members _ hmembers _ found hfound path hpath
  obtain ⟨found', hfound', hpaths⟩ := Declarations.map_path_of_fields hmembers
  cases hfound.symm.trans hfound'
  exact mem_defaults_iff.2 (.inr (hpaths ▸ hpath))

/-! ## What results are made of -/

/-- No lifetime in the bundle is made by a node above this one. -/
def MadeUpTo (env : Env) (rank : NodeId → Nat) (id : NodeId) (bundle : Bundle) : Prop :=
  ∀ (m : Path) extent, bundle[m]? = some extent → ∀ other,
    MadeBy env other extent.value ∨ MadeBy env other extent.slot → rank other ≤ rank id

theorem not_madeBy_none : ¬ MadeBy env id .none := by
  rintro ⟨h | h, -⟩ <;> cases h

theorem not_madeBy_of_anchored {context : Context} {path : Path} {extent : Extent}
    (h : Anchored context path extent) :
    ¬ (MadeBy env id extent.value ∨ MadeBy env id extent.slot) := by
  rintro (hmade | hmade)
  · rcases h.value with hnone | ⟨-, horigin⟩
    · exact not_madeBy_none (hnone ▸ hmade)
    · rcases hmade.1 with h | h <;> simp [horigin] at h
  · rw [h.slot] at hmade
    rcases hmade.1 with h | h <;> cases h

/-- The rule of a node makes lifetimes of its own, or takes over those of its operands. -/
theorem Result.madeUpTo {position : Position} {expr : Expr}
    (hresult : Result env s id ty position expr bundle) (hcoherent : Coherent s)
    (hrank : ∀ child ∈ expr.children, rank child < rank id)
    (hs : ∀ id flow, s.flowAt id = some flow → MadeUpTo env rank id flow.bundle) :
    MadeUpTo env rank id bundle := by
  intro m extent hm other hmade
  have hall := hresult.inherits (P := fun l => MadeBy env other l → rank other ≤ rank id)
    (fun l hl hmade => ?_)
    (fun path extent hlookup => ?_) (fun child hchild flow hflow m extent hextent => ?_) hm
  · exact hmade.elim hall.1 hall.2
  · cases hl with
    | none => exact absurd hmade not_madeBy_none
    | temp | region => exact madeBy_unique rfl hmade ▸ Nat.le_refl _
  · have hnot : ¬ (MadeBy env other extent.value ∨ MadeBy env other extent.slot) :=
      not_madeBy_of_anchored (hcoherent.bindings.lookup hlookup)
    exact ⟨fun h => absurd (.inl h) hnot, fun h => absurd (.inr h) hnot⟩
  · have hbelow :=
      fun h => Nat.le_trans (hs _ _ hflow _ _ hextent other h) (Nat.le_of_lt (hrank _ hchild))
    exact ⟨fun h => hbelow (.inl h), fun h => hbelow (.inr h)⟩

/-! ## Literals -/

/-- The literal has distinct fields, whose values have the types of the members. -/
structure TypedLiteral (decls : Declarations) (nodes : Arena Node) (id : NodeId) (ty : Ty)
    (fields : List (String × NodeId)) : Prop where
  node : ∃ node, nodes.get? id = some node ∧ node.expr = .structLiteral fields ∧ node.ty = ty
  distinct : (fields.map Prod.fst).Nodup
  typed : ∀ field ∈ fields, ∃ value, nodes.get? field.2 = some value ∧
    decls.memberType? ty field.1 = .ok (some value.ty)

instance {decls : Declarations} {nodes : Arena Node} :
    Decidable (TypedLiteral decls nodes id ty fields) :=
  decidable_of_iff ((∃ node, nodes.get? id = some node ∧ node.expr = .structLiteral fields ∧
    node.ty = ty) ∧
      (fields.map Prod.fst).Nodup ∧
      ∀ field ∈ fields, ∃ value, nodes.get? field.2 = some value ∧
        decls.memberType? ty field.1 = .ok (some value.ty))
    ⟨fun h => ⟨h.1, h.2.1, h.2.2⟩, fun h => ⟨h.node, h.distinct, h.typed⟩⟩

section

variable (h : LiteralBundle env s id ty fields bundle)

include h

/-- Below the name of a field, a literal that carries references has the values of the field. -/
theorem LiteralBundle.scopedTo_eq {nodes : Arena Node} (htracked : env.tracked ty = .ok true)
    (hliteral : TypedLiteral env.declarations nodes id ty fields)
    (hproper : env.declarations.Proper ty) {field : String × NodeId} (hfield : field ∈ fields)
    (hflow : s.flowAt field.2 = some flow) (hfills : ∀ value, nodes.get? field.2 = some value →
      flow.bundle.Fills env.declarations value.ty) :
    bundle.scopedTo (.single field.1) = flow.bundle.asValues := by
  have hsource : ∀ {m : Path} {extent : Extent}, bundle[m]? = some extent → _ :=
    h.exists_of_getElem?
  rcases h with ⟨hfalse, -⟩ | ⟨-, entries, members, hmembers, hentries, rfl, -⟩
  · cases htracked.symm.trans hfalse
  refine ExtTreeMap.ext_getElem? fun path => ?_
  rw [Bundle.getElem?_scopedTo, Bundle.asValues, ExtTreeMap.getElem?_map]
  cases hgiven : flow.bundle[path]? with
  | some extent =>
      exact getElem?_defaults (getElem?_fieldEntries hliteral.distinct hentries hfield hflow hgiven)
  | none =>
    rw [Option.map_none, Option.eq_none_iff_forall_not_mem]
    intro extent hextent
    rcases hsource hextent
      with ⟨hfalse, -⟩ | ⟨-, ⟨members', member, hmember, hmembers', hpath, -⟩ |
      ⟨other, hother, flow', n, found, hflow', hfound, hpath, -⟩⟩
    · cases htracked.symm.trans hfalse
    · -- A default below the name is one for a member of the field, which has an extent already.
      obtain ⟨value, hvalue, hinner⟩ := hliteral.typed field hfield
      obtain ⟨found, hfound, hpaths⟩ := Declarations.map_path_of_fields hmembers'
      obtain ⟨below, hbelow⟩ := (hproper.memberType? hinner).1.exists_members
      have hmem : Path.single field.1 ++ path ∈ found.map Prod.fst := by
        rw [← hpaths, ← hpath]
        exact List.mem_map_of_mem hmember
      have hin := hfills value hvalue below hbelow path
        ((Declarations.single_append_mem_members_iff hproper hinner hfound hbelow).1 hmem)
      simp [ExtTreeMap.mem_iff_isSome_getElem?, hgiven] at hin
    · obtain ⟨hname, hrest⟩ := List.cons.inj (congrArg Path.segments hpath)
      obtain rfl := List.inj_on_of_nodup_map hliteral.distinct hfield hother hname
      cases hflow.symm.trans hflow'
      obtain rfl : path = n := congrArg Path.mk hrest
      cases hgiven.symm.trans hfound

/-- The value of a literal as a whole is its own lifetime. -/
theorem LiteralBundle.whole?_eq (htracked : env.tracked ty = .ok true)
    (hproper : env.declarations.Proper ty) (hfills : bundle.Fills env.declarations ty) :
    bundle.whole? = some (.ofValue (env.literalAt id)) := by
  have hvoid : ty.isVoid = false := by
    cases ty with
    | void =>
      rw [Env.tracked, Declarations.tracked, Declarations.tracksWithin] at htracked
      cases htracked
    | _ => rfl
  obtain ⟨members, hmembers⟩ := hproper.exists_members
  have hwhole : Path.whole ∈ bundle := by
    refine hfills members hmembers .whole ?_
    rw [Declarations.members, hvoid, if_neg Bool.false_ne_true] at hmembers
    obtain ⟨below, rfl⟩ := Declarations.head_of_membersWithin hmembers
    exact List.mem_cons_self
  obtain ⟨extent, hextent⟩ :=
    Option.isSome_iff_exists.1 (ExtTreeMap.isSome_getElem?_iff_mem.2 hwhole)
  rcases h.exists_of_getElem? hextent
    with ⟨hfalse, -⟩ | ⟨-, ⟨_, member, -, -, hpath, rfl⟩ |
    ⟨_, -, _, _, _, -, -, hpath, -⟩⟩
  · cases htracked.symm.trans hfalse
  · rw [Bundle.whole?, hextent, defaultExtent, if_pos (.inl hpath)]
  · cases congrArg Path.segments hpath

/-- Below the name of a field, a literal without references has the members of the field, which has
no data either. -/
theorem LiteralBundle.scopedTo_eq_of_plain {inner : Ty} {below : Bundle} {name : String}
    (hplain : env.tracked ty = .ok false) (hproper : env.declarations.Proper ty)
    (hinner : env.declarations.memberType? ty name = .ok (some inner))
    (hbelow : below.Complete env.declarations inner)
    (hnone : ∀ (m : Path) extent, below[m]? = some extent → extent.value = .none) :
    bundle.scopedTo (.single name) = below.asValues := by
  rcases h with ⟨-, huntracked⟩ | ⟨htracked, -⟩
  swap
  · cases htracked.symm.trans hplain
  obtain ⟨members, hmembers, hkeys⟩ := hbelow
  obtain ⟨members', hmembers', hkeys'⟩ :=
    (complete_untracked huntracked).scopedTo hproper hinner
  cases hmembers.symm.trans hmembers'
  have hsame : ∀ path, path ∈ bundle.scopedTo (.single name) ↔ path ∈ below :=
    fun path => (hkeys' path).trans (hkeys path).symm
  simp only [ExtTreeMap.mem_iff_isSome_getElem?] at hsame
  refine ExtTreeMap.ext_getElem? fun path => ?_
  rw [Bundle.asValues, ExtTreeMap.getElem?_map]
  cases hfound : below[path]? with
  | none => simpa [hfound] using hsame path
  | some extent =>
    obtain ⟨other, hother⟩ := Option.isSome_iff_exists.1 ((hsame path).2 (by simp [hfound]))
    rw [Bundle.getElem?_scopedTo] at hother
    rw [Bundle.getElem?_scopedTo, hother, untracked_of_untrackedBundle huntracked hother,
      Option.map_some, hnone path extent hfound]
    rfl

/-- A literal that carries references holds the data of its fields itself: its own lifetime is not
among what is made below. -/
theorem LiteralBundle.holds (htracked : env.tracked ty = .ok true) {field : String × NodeId}
    (hfield : field ∈ fields) (hrank : rank field.2 < rank id)
    (hflow : s.flowAt field.2 = some flow) (hmade : MadeUpTo env rank field.2 flow.bundle)
    {data : Lifetime} (hdata : data ∈ flow.bundle.tracked) :
    s.context.graph.Holds (env.literalAt id) data := by
  rcases h with ⟨hfalse, -⟩ | ⟨-, _, _, -, -, -, hnear⟩
  · cases htracked.symm.trans hfalse
  refine (hnear field hfield flow hflow data hdata).resolve_left ?_
  rintro rfl
  obtain ⟨m, extent, hm, hvalue, -⟩ := Bundle.mem_tracked_iff.1 hdata
  have hself : MadeBy env id (env.literalAt id) :=
    ⟨.inl rfl, "struct", .whole, (Path.append_whole _).symm⟩
  exact Nat.not_lt.2 (hmade m extent hm id (.inl (hvalue ▸ hself))) hrank

end

/-! ## Projections -/

/-- All results are made of what their own nodes or the nodes below make. -/
theorem Inside.madeUpTo {S : NodeId → Prop}
    (hvisits : ∀ position id, X.visits position id → S id)
    (hrank : ∀ id node, S id → X.env.node id = .ok node → ∀ child ∈ node.expr.children,
      S child ∧ rank child < rank id) (h : Inside X p s p' s') (hcoherent : Coherent s)
    (hs : ∀ id, s.flowAt id = none) :
    ∀ id flow, s'.flowAt id = some flow → MadeUpTo X.env rank id flow.bundle :=
  h.flows (fun _ task _ hcoherent hs hresult => hresult.madeUpTo hcoherent
    (fun child hchild => (hrank _ _ (hvisits _ _ task.visited) task.found child hchild).2) hs)
      hcoherent
    (by simp [hs])

/-- An access has what its target has below the name. -/
theorem Attested.scopedTo {target : NodeId} {name : String} {node : Node} (h : Attested X s id flow)
    (hnode : X.env.node id = .ok node) (hexpr : node.expr = .memberAccess target name) :
    ∃ whole, s.flowAt target = some whole ∧ flow.bundle = whole.bundle.scopedTo
    (.single name) := by
  obtain ⟨task, s₀, rfl, -, hgrows, hresult, -, -⟩ := h
  cases hnode.symm.trans task.found
  rw [hexpr] at hresult
  obtain ⟨whole, -, hwhole, hbundle, -⟩ : ∃ whole members, s₀.flowAt target = some whole ∧
      flow.bundle = whole.bundle.scopedTo (.single name) ∧ flow.bundle.whole?.isNone = false ∧
      X.env.declarations.members task.node.ty = .ok members ∧
      flow.bundle.size = members.length := by
    cases hposition : task.position <;> rw [hposition] at hresult <;> exact hresult
  exact ⟨whole, hgrows.recorded _ _ hwhole, hbundle⟩

/-- The extents of a literal say where the data of its fields is, in all later states. -/
theorem LiteralBundle.later (h : LiteralBundle env s id ty fields bundle) (hgrows : Grows s s')
    (hfields : ∀ field ∈ fields, s.flowAt field.2 ≠ none) :
    LiteralBundle env s' id ty fields bundle := by
  rcases h with hplain | ⟨htracked, entries, members, hmembers, hentries, hbundle, hnear⟩
  · exact .inl hplain
  refine .inr ⟨htracked, entries, members, hmembers, ?_, hbundle,
    fun field hfield flow hflow data hdata => ?_⟩
  · refine hentries.imp ?_
    rintro field part ⟨flow, hflow, hpart⟩
    exact ⟨flow, hgrows.recorded _ _ hflow, hpart⟩
  · obtain ⟨flow₀, hflow₀⟩ := Option.ne_none_iff_exists'.1 (hfields field hfield)
    cases (hgrows.recorded _ _ hflow₀).symm.trans hflow
    exact (hnear field hfield flow hflow₀ data hdata).mono hgrows.graph

theorem Attested.literal {node : Node} (h : Attested X s id flow) (hnode : X.env.node id = .ok node)
    (hexpr : node.expr = .structLiteral fields) :
    X.visits .value id ∧ LiteralBundle X.env s id node.ty fields flow.bundle ∧
      ∀ field ∈ fields, s.flowAt field.2 ≠ none := by
  obtain ⟨task, s₀, rfl, -, hgrows, hresult, -, hoperands⟩ := h
  cases hnode.symm.trans task.found
  rw [hexpr] at hresult hoperands
  cases hposition : task.position with
  | place =>
    rw [hposition] at hresult
    exact hresult.elim
  | value =>
    rw [hposition] at hresult hoperands
    have hfields : ∀ field ∈ fields, s₀.flowAt field.2 ≠ none := fun field hfield =>
      hoperands (.value, field.2) (List.mem_map_of_mem (List.mem_map_of_mem hfield))
    refine ⟨hposition ▸ task.visited, LiteralBundle.later hresult hgrows hfields,
      fun field hfield => ?_⟩
    exact hgrows.recorded_ne_none (hfields field hfield)

/-- Where a literal with distinct fields of the right types has a result: a member of it that was
accessed has the member paths of the field, in the same order, with the same data and no storage. A
literal whose type carries references holds all data of its fields itself. For one whose type
carries none, the other literals of the body have to be right as well. -/
theorem projection_of_literal {items : List Item} {assembly : Program.Assembly}
    (hitems : Program.ofItems items = .ok assembly) {owner : Owner}
    (howner : owner ∈ assembly.program.owners) {function : Function}
    (hkind : owner.kind = .function function) {ids : List NodeId} (hwalk : owner.walk = .ok ids)
    (hnodup : ids.Nodup) (hproper : ∀ id node, owner.nodes.get? id = some node →
      assembly.declarations.Proper node.ty)
    {options : Options} {context : Context}
    (h : Point (.ofFunction assembly.declarations options owner function) function context s)
    {literal : NodeId} {ty : Ty} {fields : List (String × NodeId)}
    (hliteral : TypedLiteral assembly.declarations owner.nodes literal ty fields)
    (hplain : assembly.declarations.tracked ty = .ok false →
      WellTyped assembly.declarations owner.nodes)
    {whole : NodeFlow} (hwhole : s.flowAt literal = some whole) :
    ∀ field ∈ fields, ∃ flow, s.flowAt field.2 = some flow ∧
      (∀ access node, owner.nodes.get? access = some node →
        node.expr = .memberAccess literal field.1 → ∀ member, s.flowAt access = some member →
          member.bundle.toList = flow.bundle.toList.map fun entry =>
          (entry.1, .ofValue entry.2.value)) ∧
      (assembly.declarations.tracked ty = .ok true →
        ∃ extent, whole.bundle.whole? = some extent ∧
        ∀ data ∈ flow.bundle.tracked, s.context.graph.Holds extent.value data) := by
  have htypes := Program.typed_ofItems hitems howner hkind
  have hwalkFrom := (Owner.walk_eq hkind).symm.trans hwalk
  obtain ⟨p, hinside⟩ := h.inside
  have hattested := hinside.attested (coherent_start _ _) rfl (by simp [flowAt_start])
  have hfills := hinside.fills htypes hproper (coherent_start _ _) (flowAt_start _ _)
  obtain ⟨node, hnode, hexpr, rfl⟩ := hliteral.node
  obtain ⟨hvisited, hbundle, hfields⟩ :=
    (hattested literal whole hwhole).literal (env_node_eq_ok_iff.2 hnode) hexpr
  have hproperLiteral := hproper literal node hnode
  intro field hfield
  obtain ⟨flow, hflow⟩ := Option.ne_none_iff_exists'.1 (hfields field hfield)
  obtain ⟨value, hvalue, hmember⟩ := hliteral.typed field hfield
  refine ⟨flow, hflow, fun access accessNode haccess haccessExpr member hmemberFlow => ?_,
    fun htracked => ?_⟩
  · obtain ⟨whole', hwhole', hscoped⟩ :=
      (hattested access member hmemberFlow).scopedTo (env_node_eq_ok_iff.2 haccess) haccessExpr
    cases hwhole.symm.trans hwhole'
    suffices heq : whole.bundle.scopedTo (.single field.1) = flow.bundle.asValues by
      rw [hscoped, heq, Bundle.asValues, Std.ExtTreeMap.toList_map]
    obtain ⟨b, hb⟩ := hproperLiteral.exists_tracked
    cases b with
    | true =>
      exact hbundle.scopedTo_eq hb hliteral hproperLiteral hfield hflow fun value hvalue =>
        hfills field.2 flow hflow value (env_node_eq_ok_iff.2 hvalue)
    | false =>
      -- Neither the literal nor what was put into it has data.
      have hwell := hplain hb
      have hcomplete := hinside.complete htypes hwell (coherent_start _ _) (flowAt_start _ _)
      have hextents :=
        hinside.flows (fun s task bundle _ hs hresult => hresult.plainExtents htypes hwell.legible
        (closed_traverses _ _ _) (fun _ _ _ h h' => h.position_eq h' hwalkFrom hnodup) hs)
          (coherent_start _ _)
        (by simp [flowAt_start])
      have hbelow := Declarations.tracked_eq_false_of_contains hb
        (.single (Declarations.contains_of_memberType? hmember))
      have hfieldComplete := hcomplete field.2 flow hflow value (env_node_eq_ok_iff.2 hvalue)
      have hvisitedField :=
        closed_traverses _ _ _ _ _ _ hvisited (env_node_eq_ok_iff.2 hnode) (.value, field.2)
        (by rw [hexpr]; exact List.mem_map_of_mem (List.mem_map_of_mem hfield))
      exact hbundle.scopedTo_eq_of_plain hb hproperLiteral hmember hfieldComplete fun m extent hm =>
        (hextents field.2 flow hflow).value_eq_none hvisitedField (env_node_eq_ok_iff.2 hvalue)
          ((covering_keyed _).complete _ _ (hwell.legible.distinct field.2 value hvalue)
            hfieldComplete) hbelow hm
  · obtain ⟨S, rank, hvisits, hrank⟩ : Setting.Acyclic
        (.ofFunction (.ofFunction assembly.declarations options owner function) function) :=
      acyclic_of_walkFrom _ (by simpa using ⟨_, _, hwalkFrom⟩)
    have hmade := hinside.madeUpTo hvisits hrank (coherent_start _ _) (flowAt_start _ _)
    have hlt := (hrank literal node (hvisits _ _ hvisited) (env_node_eq_ok_iff.2 hnode) field.2
      (by rw [hexpr]; exact List.mem_map_of_mem hfield)).2
    exact ⟨_, hbundle.whole?_eq htracked hproperLiteral
      (hfills literal whole hwhole node (env_node_eq_ok_iff.2 hnode)),
      fun data hdata => hbundle.holds htracked hfield hlt hflow (hmade field.2 flow hflow) hdata⟩

/-- With `struct Inner { int* data; int size; }` and `struct Outer { Inner inner; int* spare; }`,
the function `int* f(Inner i, int* p) { Outer { inner: i, spare: p }.inner.data }`. -/
def wrapping : List Item := [
  .aggregate .struct "Inner" [⟨"data", .pointer .int, true⟩, ⟨"size", .int, true⟩],
  .aggregate .struct "Outer" [⟨"inner", .nominal (.ofString "Inner") .struct, true⟩,
    ⟨"spare", .pointer .int, true⟩],
  .function "f"
  [⟨"i", .nominal (.ofString "Inner") .struct, true⟩, ⟨"p", .pointer .int, true⟩]
      (.pointer .int) (.block [
    .member (.member (.record (.nominal (.ofString "Outer") .struct)
      [("inner", .var "i"), ("spare", .var "p")]) "inner") "data"])]

/-- What is read from the member `inner` is what is in `i`. -/
theorem projection_of_wrapping : ∃ assembly owner function ids s fields whole member flow,
    Program.ofItems wrapping = .ok assembly ∧ owner ∈ assembly.program.owners ∧
    owner.kind = .function function ∧ owner.Neat assembly.declarations function ∧
    owner.walk = .ok ids ∧ ids.Nodup ∧
    PassesBy (.ofFunction assembly.declarations {} owner function) function .initial
    (.after ⟨3⟩) s ∧
    TypedLiteral assembly.declarations owner.nodes ⟨2⟩
    (.nominal (.ofString "Outer") .struct) fields ∧
    s.flowAt ⟨2⟩ = some whole ∧ s.flowAt ⟨3⟩ = some member ∧
    s.flowAt ⟨0⟩ = some flow ∧
    member.bundle.toList = flow.bundle.toList.map fun entry =>
    (entry.1, .ofValue entry.2.value) := by
  have h : PassesAt wrapping {} (.after ⟨3⟩) fun assembly owner function s =>
      owner.LooksNeat assembly.declarations (fun path => if path = .ofString "Outer" then 1
        else 0) function ∧
      (∃ ids, owner.walk = .ok ids ∧ ids.Nodup) ∧
      TypedLiteral assembly.declarations owner.nodes ⟨2⟩ (.nominal (.ofString "Outer") .struct)
        [("inner", ⟨0⟩), ("spare", ⟨1⟩)] ∧
      (∃ node, owner.nodes.get? ⟨3⟩ = some node ∧
      node.expr = .memberAccess ⟨2⟩ "inner") ∧
      ∀ id ∈ [(⟨2⟩ : NodeId), ⟨3⟩], (s.flowAt id).isSome = true := by
    decide +kernel
  obtain ⟨assembly, hitems, owner, howner, function, hkind, s, hpasses, hneat,
    ⟨ids, hwalk, hnodup⟩, hliteral, ⟨node, hnode, hexpr⟩, hdone⟩ := h
  obtain ⟨whole, hwhole⟩ := Option.isSome_iff_exists.1 (hdone ⟨2⟩ (by simp))
  obtain ⟨member, hmember⟩ := Option.isSome_iff_exists.1 (hdone ⟨3⟩ (by simp))
  have hneat := hneat.neat
  obtain ⟨flow, hflow, hprojection, -⟩ :=
    projection_of_literal hitems howner hkind hwalk hnodup hneat.nodes.proper
    (.passes hpasses) hliteral (fun _ => hneat.nodes) hwhole ("inner", ⟨0⟩) (by simp)
  exact ⟨assembly, owner, function, ids, s, _, whole, member, flow, hitems, howner, hkind, hneat,
    hwalk, hnodup, hpasses, hliteral, hwhole, hmember, hflow,
    hprojection ⟨3⟩ node hnode hexpr member hmember⟩

/-- With `struct S { int x; int* y; }` and `struct V { int n; }`, the function
`int f(int* a) { V { n: S { x: a, y: a }.x }.n }`. -/
def smuggling : List Item := [
  .aggregate .struct "S" [⟨"x", .int, true⟩, ⟨"y", .pointer .int, true⟩],
  .aggregate .struct "V" [⟨"n", .int, true⟩],
  .function "f" [⟨"a", .pointer .int, true⟩] .int (.block [
    .member (.record (.nominal (.ofString "V") .struct) [("n",
      .member
      (.record (.nominal (.ofString "S") .struct) [("x", .var "a"), ("y", .var "a")]) "x")]) "n"])]

set_option synthInstance.maxSize 1024

/-- A pointer that was put into the `int` member of another literal does not come through a literal
whose type carries no references, although the `int` that it was taken for fits. -/
theorem exists_projection_ne_of_smuggling :
    ∃ assembly owner function ids s node whole flow member,
    Program.ofItems smuggling = .ok assembly ∧ owner ∈ assembly.program.owners ∧
    owner.kind = .function function ∧ owner.walk = .ok ids ∧ ids.Nodup ∧
    (∀ id node, owner.nodes.get? id = some node → assembly.declarations.Proper node.ty) ∧
    PassesBy (.ofFunction assembly.declarations {} owner function) function .initial
    (.after ⟨5⟩) s ∧
    TypedLiteral assembly.declarations owner.nodes ⟨4⟩ (.nominal (.ofString "V") .struct)
    [("n", ⟨3⟩)] ∧
    owner.nodes.get? ⟨5⟩ = some node ∧ node.expr = .memberAccess ⟨4⟩ "n" ∧
    s.flowAt ⟨4⟩ = some whole ∧ s.flowAt ⟨3⟩ = some flow ∧
    s.flowAt ⟨5⟩ = some member ∧
    member.bundle.toList ≠ flow.bundle.toList.map fun entry =>
    (entry.1, .ofValue entry.2.value) := by
  have h : PassesAt smuggling {} (.after ⟨5⟩) fun assembly owner _ s =>
      assembly.declarations.Ranked (fun _ => 0) ∧
      (∀ id node, owner.nodes.get? id = some node → ∀ path, node.ty.aggregate? = some path →
        path ∈ assembly.declarations.aggregates) ∧
      (∃ ids, owner.walk = .ok ids ∧ ids.Nodup) ∧
      TypedLiteral assembly.declarations owner.nodes ⟨4⟩ (.nominal (.ofString "V") .struct)
      [("n", ⟨3⟩)] ∧
      (∃ node, owner.nodes.get? ⟨5⟩ = some node ∧ node.expr = .memberAccess ⟨4⟩ "n") ∧
      (s.flowAt ⟨4⟩).isSome = true ∧ ∃ flow, s.flowAt ⟨3⟩ = some flow ∧
      ∃ member, s.flowAt ⟨5⟩ = some member ∧
        member.bundle.toList.map (·.2.value) ≠ flow.bundle.toList.map (·.2.value) := by
    decide +kernel
  obtain ⟨assembly, hitems, owner, howner, function, hkind, s, hpasses, hranked, hdeclared,
    ⟨ids, hwalk, hnodup⟩,
    hliteral, ⟨node, hnode, hexpr⟩, hdone, flow, hflow, member, hmember, hne⟩ := h
  obtain ⟨whole, hwhole⟩ := Option.isSome_iff_exists.1 hdone
  refine ⟨assembly, owner, function, ids, s, node, whole, flow, member, hitems, howner, hkind,
    hwalk, hnodup,
    fun id node hnode => Declarations.proper_of_ranked hranked (hdeclared id node hnode), hpasses,
    hliteral, hnode, hexpr, hwhole, hflow, hmember, fun heq => hne ?_⟩
  rw [heq, List.map_map]
  rfl

end Flow
end Regions
