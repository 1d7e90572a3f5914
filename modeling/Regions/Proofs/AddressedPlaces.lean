import Regions.Proofs.Coherence

/-!
# Writing through the address of a place

`P = e` gives every member of `P` that carries references a new version. `*(&P) = e` knows only that
it writes into the slot of `P`: it gives `P` itself a new version, once for each such member, and
the members keep theirs.

* `runs_assign_direct`, `runs_assign_through`: what the two assignments rebind;
* `assign_through_address_iff`: they do the same exactly if the type of `P` is no aggregate that
  carries references.
-/

namespace Regions.Flow

variable {env : Env} {depth n m : Nat} {s s' : State} {id place value address deref : NodeId}
  {path : Path} {nodes : List NodeId} {ty : Ty}

/-- The operands of an assignment were analysed. -/
def RunsOperands (env : Env) (depth : Nat) (target value : NodeId) (s t : State) : Prop :=
  ∃ t₀, Runs (analyzeNode env depth .place target) s () t₀ ∧
    Runs (analyzeNode env depth .value value) t₀ () t

/-- The only operand of a node without results below has none either. -/
theorem fresh_of_walkFrom {operand : NodeId} {node : Node} (hnode : env.node id = .ok node)
    (hchildren : node.expr.children = [operand]) (hwalk : env.owner.walkFrom m id = .ok nodes)
    (hfresh : ∀ id ∈ nodes, s.flowAt id = none) :
    s.flowAt id = none ∧ ∃ below, env.owner.walkFrom (m - 1) operand = .ok below ∧
      ∀ id ∈ below, s.flowAt id = none := by
  cases m with
  | zero => cases hwalk
  | succ m =>
    obtain ⟨node', hnode', hwalk⟩ := except_bind_eq_ok hwalk
    obtain rfl : node = node' := Except.ok.inj (hnode.symm.trans hnode')
    obtain ⟨parts, hparts, hnodes⟩ := except_bind_eq_ok hwalk
    cases hnodes
    rw [hchildren] at hparts
    obtain ⟨below, _, hbelow, _, rfl⟩ := mapM_ok_cons_iff.1 hparts
    refine ⟨hfresh id List.mem_cons_self, below, hbelow, fun other hother => ?_⟩
    exact hfresh other (List.mem_cons_of_mem _ (List.mem_append_left _ hother))

/-! ## The two assignments -/

/-- Where the members of a place are the slots of certain paths, these paths are rebound. -/
theorem rebinds_of_slots {f : Path → Path} {fields : List Field} {places assigned : Bundle}
    {span : Span} {t t' : State}
    (hslot : ∀ (q : Path) (extent : Extent), places[q]? = some extent →
      extent.slot = .root (f q) .localSlot)
    (hloop : Runs (fields.forM (assignField env id places assigned span)) t () t')
    (hrecorded : Recorded id ∅ t' s') :
    (∀ q, Rebinds t s' q ↔ ∃ field ∈ fields, field.tracked = true ∧ q = f field.path) ∧
      ∀ q, Rebinds t s' q → ∃ field ∈ fields, field.tracked = true ∧ q = f field.path ∧
        ∃ new, assigned[field.path]? = some new ∧ BoundTo s' q new.value := by
  have hlocals := assignsLocals_fields (fun field _ place hplace => by
    rw [hslot field.path place hplace]
    rfl) hloop
  obtain ⟨entries, hentries, hlog⟩ := hlocals.log
  have hrebinds : ∀ q, Rebinds t s' q ↔ Rebinds t t' q := fun q => by
    rw [Rebinds, Rebinds, hrecorded.rebound]
  refine ⟨fun q => ?_, fun q hq => ?_⟩
  · rw [hrebinds, rebinds_iff_of_append hentries, hlog]
    constructor
    · rintro ⟨field, hfield, htracked, extent, hextent, rfl⟩
      exact ⟨field, hfield, htracked, congrArg Lifetime.path (hslot _ _ hextent)⟩
    · rintro ⟨field, hfield, htracked, rfl⟩
      obtain ⟨extent, _, hextent, _⟩ := hlocals.given field hfield
      exact ⟨field, hfield, htracked, extent, hextent,
        congrArg Lifetime.path (hslot _ _ hextent)⟩
  · obtain ⟨field, hfield, htracked, extent, new, hextent, hnew, hq, hbound⟩ :=
      hlocals.bound q ((hrebinds q).1 hq)
    exact ⟨field, hfield, htracked,
      hq.symm.trans (congrArg Lifetime.path (hslot _ _ hextent)), new, hnew,
      hbound.of_still hrecorded.toStill⟩

section

variable (hcoherent : s.frame.Coherent) (hpath : placePath? env.owner n place = .ok (some path))

include hcoherent hpath

section

variable (hwalk : env.owner.walkFrom m place = .ok nodes)
  (hfresh : ∀ id ∈ nodes, s.flowAt id = none) (hty : env.typeOf place = .ok ty)
  (h : Runs (assign env (analyzeNode env depth) id place value) s () s')

include hwalk hfresh hty h

/-- An assignment to the place that a path names: each field has the slot of its own path. -/
theorem runs_assign_place : ∃ fields t places assigned span t', env.fields ty = .ok fields ∧
      RunsOperands env depth place value s t ∧ t.flowAt place = some places ∧
      t.flowAt value = some assigned ∧
      (∀ (q : Path) (extent : Extent), places.bundle[q]? = some extent →
        extent.slot = .root (path ++ q) .localSlot) ∧
      Runs (fields.forM (assignField env id places.bundle assigned.bundle span)) t () t' ∧
      Recorded id ∅ t' s' := by
  obtain ⟨t₀, t, places, assigned, node, ty', fields, t', hplace, hvalue, hplaces, hassigned, -,
    hty', hfields, hloop, hrecorded, -⟩ := runs_assign h
  obtain rfl : ty = ty' := Except.ok.inj (hty.symm.trans hty')
  obtain ⟨bundle, t₁, -, hnamed, hbundle⟩ := runs_place hpath hwalk hfresh hplace
  obtain ⟨escaping, hself⟩ := hnamed.self
  -- The place keeps its result while the value is analysed.
  have hkept := (grows_analyzeNode env depth .value value t₀ () t hvalue).recorded place _ hself
  obtain rfl : places = ⟨bundle, escaping⟩ := Option.some.inj (hplaces.symm.trans hkept)
  exact ⟨fields, t, _, assigned, node.span, t', hfields, ⟨t₀, hplace, hvalue⟩,
    hplaces, hassigned, fun q extent hq => hcoherent _ _ (hbundle q extent hq), hloop, hrecorded⟩

/-- An assignment to the place that a path names rebinds the members that carry references. -/
theorem runs_assign_direct :
    ∃ fields t flow, env.fields ty = .ok fields ∧ RunsOperands env depth place value s t ∧
      t.flowAt value = some flow ∧
      (∀ q, Rebinds t s' q ↔ ∃ field ∈ fields, field.tracked = true ∧
        q = path ++ field.path) ∧
      ∀ q, Rebinds t s' q → ∃ field ∈ fields, field.tracked = true ∧
      q = path ++ field.path ∧
        ∃ new, flow.bundle[field.path]? = some new ∧ BoundTo s' q new.value := by
  obtain ⟨fields, t, places, assigned, span, t', hfields, hoperands, -, hassigned, hslot, hloop,
    hrecorded⟩ := runs_assign_place hcoherent hpath hwalk hfresh hty h
  exact ⟨fields, t, assigned, hfields, hoperands, hassigned,
    rebinds_of_slots hslot hloop hrecorded⟩

end

section

variable (hderef : ∃ span, env.node deref = .ok ⟨.dereference address, ty, span⟩)
  (haddress : ∃ addressTy span, env.node address = .ok ⟨.addressOf place, addressTy, span⟩)
  (hwalk : env.owner.walkFrom m deref = .ok nodes) (hfresh : ∀ id ∈ nodes, s.flowAt id = none)

include hderef haddress hwalk hfresh

/-- The storage behind the address of a place is the slot of the place. -/
theorem runs_deref_address (h : Runs (analyzeNode env depth .place deref) s () s') :
    ∃ fields escaping, env.fields ty = .ok fields ∧
    s'.flowAt deref = some ⟨.ofList (fields.map fun
      field => (field.path, env.behind "deref" deref (.ofValue (.root path .localSlot)) field)) _,
      escaping⟩ := by
  obtain ⟨span, hderef⟩ := hderef
  obtain ⟨addressTy, addressSpan, haddress⟩ := haddress
  -- The nodes below are the address and those of the place.
  obtain ⟨hderefFresh, below, haddressWalk, hbelow⟩ := fresh_of_walkFrom hderef rfl hwalk hfresh
  obtain ⟨haddressFresh, below', hplaceWalk, hbelow'⟩ :=
    fresh_of_walkFrom haddress rfl haddressWalk hbelow
  obtain ⟨depth₁, node, rfl, hnode, hrule⟩ := runs_analyzeNode h hderefFresh
  obtain rfl := Except.ok.inj (hderef.symm.trans hnode)
  obtain ⟨s₁, flow, pointer, haddressRun, hflow, hpointer, haccess⟩ := runs_dereference hrule
  obtain ⟨depth₂, node, rfl, hnode, hrule⟩ := runs_analyzeNode haddressRun haddressFresh
  obtain rfl := Except.ok.inj (haddress.symm.trans hnode)
  obtain ⟨s₂, placeFlow, extent, hplaceRun, hplaceFlow, hextent, -, hrecorded⟩ :=
    runs_addressOf hrule
  obtain ⟨bundle, s₃, -, hnamed, hbundle⟩ := runs_place hpath hplaceWalk hbelow' hplaceRun
  obtain ⟨placeEscaping, hself⟩ := hnamed.self
  obtain rfl := Option.some.inj (hplaceFlow.symm.trans hself)
  have hlookup : s.frame.lookup? path = some extent := by
    simpa using hbundle .whole extent hextent
  have hslot : extent.slot = .root path .localSlot := hcoherent path extent hlookup
  obtain ⟨addressEscaping, hself'⟩ := hrecorded.self
  obtain rfl := Option.some.inj (hflow.symm.trans hself')
  obtain rfl : pointer = .ofValue (.root path .localSlot) := by
    rw [hslot] at hpointer
    have hmem := List.mem_singleton.1 (mem_of_getElem?_ofList hpointer)
    exact congrArg Prod.snd hmem
  obtain ⟨ty', hty', hresolved | ⟨-, fields, s₄, hfields, -, hwritten⟩⟩ :=
    runs_writeThrough haccess
  · -- An address is no variable, so that it is not resolved.
    obtain ⟨_, hresolve, _⟩ := hresolved
    cases resolve?_eq_none rfl hresolve
  · obtain ⟨escaping, hdone⟩ := hwritten.self
    have htype : env.typeOf deref = .ok ty := by
      simp [Env.typeOf, hderef, bind, Except.bind, pure, Except.pure]
    obtain rfl := Except.ok.inj (htype.symm.trans hty')
    exact ⟨fields, escaping, hfields, hdone⟩

/-- An assignment through the address of a place rebinds the place as a whole, and nothing else. -/
theorem runs_assign_through (h : Runs (assign env (analyzeNode env depth) id deref value) s () s') :
    ∃ fields t flow, env.fields ty = .ok fields ∧ RunsOperands env depth deref value s t ∧
      t.flowAt value = some flow ∧
      (∀ q, Rebinds t s' q ↔ q = path ∧ ∃ field ∈ fields, field.tracked = true) ∧
      ∀ q, Rebinds t s' q → ∃ field ∈ fields, field.tracked = true ∧
        ∃ new, flow.bundle[field.path]? = some new ∧ BoundTo s' q new.value := by
  obtain ⟨t₀, t, places, assigned, node, ty', fields, t', hplace, hvalue, hplaces, hassigned, -,
    hty', hfields, hloop, hrecorded, -⟩ := runs_assign h
  obtain ⟨fields', escaping, hfields', hself⟩ :=
    runs_deref_address hcoherent hpath hderef haddress hwalk hfresh hplace
  have htype : env.typeOf deref = .ok ty := by
    obtain ⟨span, hderef⟩ := hderef
    simp [Env.typeOf, hderef, bind, Except.bind, pure, Except.pure]
  obtain rfl := Except.ok.inj (htype.symm.trans hty')
  obtain rfl := Except.ok.inj (hfields.symm.trans hfields')
  have hkept := (grows_analyzeNode env depth .value value t₀ () t hvalue).recorded deref _ hself
  obtain rfl := Option.some.inj (hplaces.symm.trans hkept)
  have hslot : ∀ (q : Path) (extent : Extent), (Std.ExtTreeMap.ofList (fields.map fun field =>
      (field.path, env.behind "deref" deref (.ofValue (.root path .localSlot)) field))
        compare)[q]? = some extent → extent.slot = .root path .localSlot := by
    intro q extent hq
    obtain ⟨field, _, hentry⟩ := List.mem_map.1 (mem_of_getElem?_ofList hq)
    cases hentry
    rfl
  obtain ⟨hrebinds, hbound⟩ := rebinds_of_slots (f := fun _ => path) hslot hloop hrecorded
  refine ⟨fields, t, assigned, hfields, ⟨t₀, hplace, hvalue⟩, hassigned, fun q => ?_,
    fun q hq => ?_⟩
  · grind
  · obtain ⟨field, hfield, htracked, -, hnew⟩ := hbound q hq
    exact ⟨field, hfield, htracked, hnew⟩

end

end

/-! ## When they do the same -/

/-- Two assignments rebind the same variables, each to the same member of the assigned value. The
states after their operands are `t₁` and `t₂`. -/
def SameRebinding (t₁ s₁ : State) (assigned₁ : Bundle) (t₂ s₂ : State)
    (assigned₂ : Bundle) : Prop :=
  (∀ q, Rebinds t₁ s₁ q ↔ Rebinds t₂ s₂ q) ∧
    ∀ q, Rebinds t₂ s₂ q → ∃ (member : Path) (new₁ new₂ : Extent),
      assigned₁[member]? = some new₁ ∧ assigned₂[member]? = some new₂ ∧
        BoundTo s₁ q new₁.value ∧ BoundTo s₂ q new₂.value

/-- Let a path name a place of some type. Assigning the same value to the place, and through the
address of the place, rebinds the same variables to the same members of the value exactly if the
type is no aggregate that carries references. -/
theorem assign_through_address_iff {throughId directId : NodeId} {through direct : State}
    (hcoherent : s.frame.Coherent) (hpath : placePath? env.owner n place = .ok (some path))
    (hty : env.typeOf place = .ok ty)
    (hderef : ∃ span, env.node deref = .ok ⟨.dereference address, ty, span⟩)
    (haddress : ∃ addressTy span, env.node address = .ok ⟨.addressOf place, addressTy, span⟩)
    (hwalk : env.owner.walkFrom m deref = .ok nodes) (hfresh : ∀ id ∈ nodes, s.flowAt id = none)
    (hthrough : Runs (assign env (analyzeNode env depth) throughId deref value) s () through)
    (hdirect : Runs (assign env (analyzeNode env depth) directId place value) s () direct) :
    ∃ fields t₁ t₂ flow₁ flow₂, env.fields ty = .ok fields ∧
      RunsOperands env depth deref value s t₁ ∧ t₁.flowAt value = some flow₁ ∧
      RunsOperands env depth place value s t₂ ∧ t₂.flowAt value = some flow₂ ∧
      (∀ q, Rebinds t₁ through q ↔ q = path ∧
        ∃ field ∈ fields, field.tracked = true) ∧
      (∀ q, Rebinds t₂ direct q ↔
        ∃ field ∈ fields, field.tracked = true ∧ q = path ++ field.path) ∧
      (SameRebinding t₁ through flow₁.bundle t₂ direct flow₂.bundle ↔
        ty.aggregate? = none ∨ env.tracked ty = .ok false) := by
  obtain ⟨below, hplaceWalk, hplaceFresh⟩ :
      ∃ below, env.owner.walkFrom (m - 1 - 1) place = .ok below ∧
        ∀ id ∈ below, s.flowAt id = none := by
    obtain ⟨span, hnode⟩ := hderef
    obtain ⟨addressTy, addressSpan, haddressNode⟩ := haddress
    obtain ⟨-, below, haddressWalk, hbelow⟩ := fresh_of_walkFrom hnode rfl hwalk hfresh
    exact (fresh_of_walkFrom haddressNode rfl haddressWalk hbelow).2
  obtain ⟨fields, t₁, flow₁, hfields, hoperands₁, hflow₁, hset₁, hbound₁⟩ :=
    runs_assign_through hcoherent hpath hderef haddress hwalk hfresh hthrough
  obtain ⟨fields', t₂, flow₂, hfields', hoperands₂, hflow₂, hset₂, hbound₂⟩ :=
    runs_assign_direct hcoherent hpath hplaceWalk hplaceFresh hty hdirect
  obtain rfl := Except.ok.inj (hfields.symm.trans hfields')
  refine ⟨fields, t₁, t₂, flow₁, flow₂, hfields, hoperands₁, hflow₁, hoperands₂,
    hflow₂, hset₁, hset₂, ?_⟩
  constructor
  · rintro ⟨hsame, -⟩
    cases haggregate : ty.aggregate? with
    | none => exact .inl rfl
    | some aggregate =>
      refine .inr ?_
      obtain ⟨tracked, htracked⟩ := Declarations.exists_tracked_of_fields hfields
      cases tracked with
      | false => exact htracked
      | true =>
        -- A member that carries references is rebound by the direct assignment only.
        obtain ⟨field, hfield, hfieldTracked, name, hname⟩ :=
          Declarations.exists_tracked_member hfields haggregate htracked
        have hmember :=
          (hset₁ _).1 ((hsame _).2 ((hset₂ _).2 ⟨field, hfield, hfieldTracked, rfl⟩))
        rw [hname] at hmember
        have hwhole : path ++ Path.single name = path ++ Path.whole := by
          simpa using hmember.1
        cases Path.append_right_inj.1 hwhole
  · intro htype
    have hwhole : ∀ field ∈ fields, field.tracked = true → field.path = .whole := by
      intro field hfield htracked
      rcases htype with hplain | huntracked
      · exact Declarations.path_of_mem_fields hfields hplain hfield
      · cases Declarations.tracked_of_mem_fields hfields hfield htracked huntracked
    refine ⟨fun q => ?_, fun q hq => ?_⟩
    · rw [hset₁, hset₂]
      constructor
      · rintro ⟨rfl, field, hfield, htracked⟩
        exact ⟨field, hfield, htracked, by simp [hwhole field hfield htracked]⟩
      · rintro ⟨field, hfield, htracked, rfl⟩
        exact ⟨by simp [hwhole field hfield htracked], field, hfield, htracked⟩
    · obtain ⟨field₂, hfield₂, htracked₂, hq₂, new₂, hnew₂, hbinding₂⟩ :=
        hbound₂ q hq
      have hq₁ : Rebinds t₁ through q := by
        rw [hset₁]
        exact ⟨by
          simpa [hwhole field₂ hfield₂ htracked₂] using hq₂, field₂,
          hfield₂, htracked₂⟩
      obtain ⟨field₁, hfield₁, htracked₁, new₁, hnew₁, hbinding₁⟩ :=
        hbound₁ q hq₁
      rw [hwhole field₁ hfield₁ htracked₁] at hnew₁
      rw [hwhole field₂ hfield₂ htracked₂] at hnew₂
      exact ⟨.whole, new₁, new₂, hnew₁, hnew₂, hbinding₁, hbinding₂⟩

/-- The nodes of `x = 0; s = S(new int)`, and of the two assignments of `S(&x)` to `s`, where `S`
has the one member `a : int*`. -/
def addressing : Env where
  declarations := {
    functions := ∅
    aggregates := .ofList [(.single "S",
      { path := .single "S", layout := .struct,
        members := [{ name := "a", ty := .pointer .int }] })] _ }
  options := {}
  owner := {
    id := ⟨0⟩
    kind := .function ⟨.single "f", [], .void, ⟨11⟩⟩
    nodes := .ofList [
      ⟨.literal (.int 0), .int, default⟩,
      ⟨.declaration ⟨["f", "x"]⟩ ⟨0⟩, .void, default⟩,
      ⟨.new none, .pointer .int, default⟩,
      ⟨.structLiteral [("a", ⟨2⟩)], .nominal (.single "S") .struct, default⟩,
      ⟨.declaration ⟨["f", "s"]⟩ ⟨3⟩, .void, default⟩,
      ⟨.var ⟨["f", "s"]⟩, .nominal (.single "S") .struct, default⟩,
      ⟨.addressOf ⟨5⟩, .pointer (.nominal (.single "S") .struct), default⟩,
      ⟨.dereference ⟨6⟩, .nominal (.single "S") .struct, default⟩,
      ⟨.var ⟨["f", "x"]⟩, .int, default⟩,
      ⟨.addressOf ⟨8⟩, .pointer .int, default⟩,
      ⟨.structLiteral [("a", ⟨9⟩)], .nominal (.single "S") .struct, default⟩,
      ⟨.assignment ⟨7⟩ ⟨10⟩, .void, default⟩,
      ⟨.assignment ⟨5⟩ ⟨10⟩, .void, default⟩] }
  scope := .single "f"

/-- Before the assignments, the two variables are declared. -/
def beforeAddressing : FlowM Unit := do
  analyzeNode addressing 14 .value ⟨1⟩
  analyzeNode addressing 14 .value ⟨4⟩

/-- `*(&s) = S(&x)` and `s = S(&x)` do not do the same. -/
theorem not_sameRebinding_addressing :
    ∃ s through direct t₁ t₂ flow₁ flow₂, Runs beforeAddressing
    (.start .initial 13) () s ∧ s.frame.Coherent ∧
      Runs
      (assign addressing (analyzeNode addressing 14) ⟨11⟩ ⟨7⟩ ⟨10⟩) s () through ∧
      Runs (assign addressing (analyzeNode addressing 14) ⟨12⟩ ⟨5⟩ ⟨10⟩) s () direct ∧
      RunsOperands addressing 14 ⟨7⟩ ⟨10⟩ s t₁ ∧
      RunsOperands addressing 14 ⟨5⟩ ⟨10⟩ s t₂ ∧
      ¬ SameRebinding t₁ through flow₁ t₂ direct flow₂ := by
  have h : ∃ s, Runs beforeAddressing (.start .initial 13) () s ∧
      ∃ through, Runs (assign addressing (analyzeNode addressing 14) ⟨11⟩ ⟨7⟩ ⟨10⟩)
      s () through ∧
      ∃ direct,
      Runs (assign addressing (analyzeNode addressing 14) ⟨12⟩ ⟨5⟩ ⟨10⟩) s () direct ∧
        ∀ id ∈ [(⟨7⟩ : NodeId), ⟨6⟩, ⟨5⟩], s.flowAt id = none := by
    decide +kernel
  obtain ⟨s, hs, through, hthrough, direct, hdirect, hfresh⟩ := h
  have hdata : DeclaresData addressing fun _ => True := fun _ _ _ _ _ _ _ _ _ _ _ _ _ => trivial
  obtain ⟨_, s₀, hfirst, hsecond⟩ := runs_bind_iff.1 hs
  have hcoherent : s.frame.Coherent :=
    (((lawful_start _ _).analyzeNode hdata hfirst).analyzeNode hdata hsecond).coherent
  have hty : addressing.typeOf ⟨5⟩ = .ok (.nominal (.single "S") .struct) := rfl
  obtain ⟨fields, t₁, t₂, flow₁, flow₂, -, hoperands₁, -, hoperands₂, -,
      -, -, hiff⟩ :=
    assign_through_address_iff (n := 1) (m := 3) hcoherent rfl hty ⟨_, rfl⟩
      ⟨_, _, rfl⟩ rfl hfresh hthrough hdirect
  refine ⟨s, through, direct, t₁, t₂, flow₁.bundle, flow₂.bundle, hs, hcoherent,
    hthrough, hdirect, hoperands₁, hoperands₂, fun hsame => ?_⟩
  have htracked : addressing.tracked (.nominal (.single "S") .struct) = .ok true := by
    decide +kernel
  rcases hiff.1 hsame with hplain | huntracked
  · cases hplain
  · rw [htracked] at huntracked
    cases huntracked

end Regions.Flow
