import Regions.Proofs.AddressedPlaces
import Regions.Proofs.Freshness

/-!
# Assigning one member of a union

The members of a union share their storage, but each of them is bound to data of its own, as the
members of a struct are. An assignment to one of them rebinds that one. What the others are bound to
stays, and rests on the assigned data only as far as it rested on the storage of the assigned member
before.

* `reaches_rebind_iff`: what is reached after a variable got a new version;
* `reaches_assignFields_iff`: what is reached after the fields of a place were assigned;
* `MemberRead`, `runs_memberRead`: a member that is read has the data that it is bound to;
* `rootsOf_sibling_after_assign`: the roots of a member after another one was assigned.
-/

namespace Regions.Flow

variable {env : Env} {s s' : State} {id : NodeId}

/-! ## What new versions lead to -/

/-- The storings that bind the variable in a slot to a new version that stands for some data. -/
def BindStores (version data slot c x : Lifetime) : Prop :=
  c = slot ∧ x = version ∨ c = data ∧ x = version ∨ c = version ∧ x = data

theorem adds_rebind (G : Outlives) (version data slot : Lifetime) (ty? : Option Ty) :
    Outlives.Adds (BindStores version data slot) G
    ((G.unify version data).store version slot ty?) := by
  have hunify :=
    (Outlives.adds_store G version data none).trans (Outlives.adds_store _ data version none)
  refine (hunify.trans (Outlives.adds_store _ version slot ty?)).congr fun c x => ?_
  unfold BindStores
  tauto

section Binding

variable {G H : Outlives} {version data slot k r : Lifetime}

/-- A new version leads where its data leads. -/
theorem reaches_of_version (hadds : Outlives.Adds (BindStores version data slot) G H)
    (hunknown : ¬ Occurs G version) (hslot : slot ≠ version) (hr : r ≠ version)
    (h : H.Reaches version r) : data.isNone = false ∧ H.Reaches data r := by
  rcases Relation.ReflTransGen.cases_head h with heq | ⟨x, hstep, hrest⟩
  · exact absurd heq.symm hr
  · rcases (hadds version x).1 hstep
      with ⟨⟨heq, -⟩ | ⟨rfl, rfl⟩ | ⟨-, rfl⟩, hne, hsome, -⟩ | hold
    · exact absurd heq.symm hslot
    · exact absurd rfl hne
    · exact ⟨hsome, hrest⟩
    · exact absurd ⟨x, .inl hold⟩ hunknown

/-- Binding the variable in a slot to a new version lets the slot lead to the data, and adds nothing
else between lifetimes that were known. -/
theorem reaches_rebind_iff (hadds : Outlives.Adds (BindStores version data slot) G H)
    (hunknown : ¬ Occurs G version) (hslot : slot ≠ version)
    (hversionSome : version.isNone = false) (hslotSome : slot.isNone = false) (hk : k ≠ version)
    (hr : r ≠ version) :
    H.Reaches k r ↔ G.Reaches k r ∨ data.isNone = false ∧ G.Reaches k slot ∧
    H.Reaches data r := by
  constructor
  · intro h
    -- Between the version and its data one may go back and forth: the data stands for both.
    refine (?_ : (k ≠ version → _) ∧ (k = version → G.Reaches data r ∨
      data.isNone = false ∧ G.Reaches data slot ∧ H.Reaches data r)).1 hk
    clear hk
    induction h using Relation.ReflTransGen.head_induction_on with
    | refl => exact ⟨fun _ => .inl (Outlives.Reaches.refl G r), fun heq => absurd heq hr⟩
    | @head c x hstep hrest ih =>
      rcases (hadds c x).1 hstep
        with ⟨⟨rfl, rfl⟩ | ⟨rfl, rfl⟩ | ⟨rfl, rfl⟩, hne, -⟩ | hold
      · refine ⟨fun _ => ?_, fun heq => absurd heq hslot⟩
        obtain ⟨hsome, hdata⟩ := reaches_of_version hadds hunknown hslot hr hrest
        exact .inr ⟨hsome, Outlives.Reaches.refl G c, hdata⟩
      · exact ⟨fun _ => ih.2 rfl, fun _ => ih.2 rfl⟩
      · exact ⟨fun h => absurd rfl h, fun _ => ih.1 hne⟩
      · refine ⟨fun _ => ?_, fun heq => absurd ⟨x, .inl (heq ▸ hold)⟩ hunknown⟩
        have hx : x ≠ version := fun heq => hunknown ⟨c, .inr (heq ▸ hold)⟩
        have hto := Outlives.Reaches.of_holds hold
        rcases ih.1 hx with hx | ⟨hsome, hx, hdata⟩
        · exact .inl (hto.trans hx)
        · exact .inr ⟨hsome, hto.trans hx, hdata⟩
  · rintro (h | ⟨hsome, hto, hfrom⟩)
    · exact h.mono hadds.below
    · have hstep := hadds.reaches (.inl ⟨rfl, rfl⟩) hslotSome hversionSome
      have hstep' := hadds.reaches (.inr (.inr ⟨rfl, rfl⟩)) hversionSome hsome
      exact ((hto.mono hadds.below).trans hstep).trans (hstep'.trans hfrom)

end Binding

/-! ## Fields of a place -/

/-- The lifetime is none of the versions that are still to be given out. -/
def Known (s : State) (l : Lifetime) : Prop :=
  l.isRoot = true ∨ l.version = 0 ∨ l.version < s.context.nextVersion

theorem Known.later {l : Lifetime} (hle : Grows s s') (h : Known s l) : Known s' l :=
  h.imp_right fun h => h.imp_right fun hlt => Nat.lt_of_lt_of_le hlt hle.nextVersion

theorem Known.ne_nextVersionOf {l : Lifetime} (h : Known s l) (hpos : 0 < s.context.nextVersion)
    (path : Path) : l ≠ s.nextVersionOf path := by
  rcases h with hroot | hversion
  · rintro rfl
    cases hroot
  · exact Flow.ne_nextVersionOf hpos hversion path

section Fields

variable {context : Context} {path : Path} {places assigned : Bundle} {span : Span} {k r : Lifetime}

theorem inv_of_assignField {D : Discipline env} {field : Field} (hs : D.Inv none s)
    (hslot : ∀ place new, places[field.path]? = some place →
      assigned[field.path]? = some new →
      place.slot.isSlot = true ∧ D.Valid none s place.slot ∧ D.Valid none s new.value)
    (h : Runs (assignField env id places assigned span field) s () s') : D.Inv none s' := by
  obtain ⟨place, new, hplace, hnew, h⟩ := runs_assignField h
  obtain ⟨hisSlot, hplace', hnew'⟩ := hslot place new hplace hnew
  simp only [assignMember, hisSlot, if_true, runs_ite_iff, runs_pure_iff] at h
  rcases h with ⟨-, h⟩ | ⟨-, -, rfl⟩
  · obtain ⟨frame, hframe, rfl⟩ := runs_rebindLocal_adopted h
    exact hs.rebindLocal hplace' hisSlot hnew' hframe
  · exact hs

/-- One field of a place, in the slot of its own path. -/
theorem reaches_assignField_iff {field : Field} (hpos : 0 < s.context.nextVersion)
    (hs : (fresh env context).Inv none s) (hslot : ∀ extent, places[field.path]? = some extent →
      extent.slot = .root (path ++ field.path) .localSlot)
    (h : Runs (assignField env id places assigned span field) s () s') (hk : Known s k)
    (hr : Known s r) :
    s'.context.graph.Reaches k r ↔ s.context.graph.Reaches k r ∨ field.tracked = true ∧
      ∃ new, assigned[field.path]? = some new ∧ new.value.isNone = false ∧
        s.context.graph.Reaches k (.root (path ++ field.path) .localSlot) ∧
        s'.context.graph.Reaches new.value r := by
  obtain ⟨place, new, hplace, hnew, h⟩ := runs_assignField h
  have hisSlot : place.slot.isSlot = true := by
    rw [hslot place hplace]
    rfl
  simp only [assignMember, hisSlot, if_true, runs_ite_iff, runs_pure_iff] at h
  rcases h with ⟨htracked, h⟩ | ⟨htracked, -, rfl⟩
  · obtain ⟨frame, -, hs'⟩ := runs_rebindLocal_iff.1 h
    have hadds : Outlives.Adds (BindStores (s.nextVersionOf (path ++ field.path)) new.value
        (.root (path ++ field.path) .localSlot)) s.context.graph s'.context.graph := by
      rw [hs', hslot place hplace]
      exact adds_rebind s.context.graph _ new.value _ field.ty
    have hslotKnown : Known s (.root (path ++ field.path) .localSlot) := .inl rfl
    rw [reaches_rebind_iff hadds (not_occurs_nextVersionOf hpos hs.dated _)
      (hslotKnown.ne_nextVersionOf hpos _) rfl rfl (hk.ne_nextVersionOf hpos _)
      (hr.ne_nextVersionOf hpos _)]
    simp [htracked, hnew]
  · simp [htracked]

/-- The fields of a place, each in the slot of its own path: the slots lead to the data. -/
theorem reaches_assignFields_iff {fields : List Field} (hpos : 0 < s.context.nextVersion)
    (hs : (fresh env context).Inv none s) (hplaces : (fresh env context).Bundled none s places)
    (hassigned : (fresh env context).Bundled none s assigned)
    (hslot : ∀ (q : Path) (extent : Extent), places[q]? = some extent →
      extent.slot = .root (path ++ q) .localSlot)
    (h : Runs (fields.forM (assignField env id places assigned span)) s () s') (hk : Known s k)
    (hr : Known s r) :
    s'.context.graph.Reaches k r ↔ s.context.graph.Reaches k r ∨ ∃ field ∈ fields,
      field.tracked = true ∧ ∃ new, assigned[field.path]? = some new ∧
      new.value.isNone = false ∧
        s.context.graph.Reaches k (.root (path ++ field.path) .localSlot) ∧
        s'.context.graph.Reaches new.value r := by
  induction h using runs_forM_rec generalizing k with
  | nil => simp
  | @cons field fields s s₁ s' hfield hfields ih =>
    have hle := grows_assignField _ _ _ hfield
    have hs₁ := inv_of_assignField hs (fun place new hplace hnew =>
      ⟨hslot _ _ hplace ▸ rfl, (hplaces _ _ hplace).slot, (hassigned _ _ hnew).value⟩) hfield
    have hbelow := (grows_assignFields _ _ _ hfields).graph
    have hfirst : ∀ {r}, Known s r → (s₁.context.graph.Reaches k r ↔ _) :=
      reaches_assignField_iff hpos hs (hslot field.path) hfield hk
    have hrest : ∀ {k}, Known s k → (s'.context.graph.Reaches k r ↔ _) := fun hk =>
      ih (Nat.lt_of_lt_of_le hpos hle.nextVersion) hs₁ (hplaces.later hle (.refl _ _))
        (hassigned.later hle (.refl _ _)) (hk.later hle) (hr.later hle)
    have hdata : ∀ (q : Path) (new : Extent), assigned[q]? = some new → Known s new.value :=
      fun q new hnew => .inr (hassigned q new hnew).value.version
    constructor
    · intro h
      rcases (hrest hk).1 h with h | ⟨other, hother, htracked, new, hnew, hsome, hto, hfrom⟩
      · rcases (hfirst hr).1 h with h | ⟨htracked, new, hnew, hsome, hto, hfrom⟩
        · exact .inl h
        · exact .inr
            ⟨field, List.mem_cons_self, htracked, new, hnew, hsome, hto, hfrom.mono hbelow⟩
      · have hmem := List.mem_cons_of_mem field hother
        rcases (hfirst (.inl rfl)).1 hto
          with hto | ⟨htracked', first, hfirst', hsome', hto', hthrough⟩
        · exact .inr ⟨other, hmem, htracked, new, hnew, hsome, hto, hfrom⟩
        · -- The slot of the later field is reached through the data of the first.
          have hdata' := (hrest (hdata _ _ hfirst')).2
            (.inr ⟨other, hother, htracked, new, hnew, hsome, hthrough, hfrom⟩)
          exact .inr
            ⟨field, List.mem_cons_self, htracked', first, hfirst', hsome', hto', hdata'⟩
    · rintro (h | ⟨other, hother, htracked, new, hnew, hsome, hto, hfrom⟩)
      · exact (hrest hk).2 (.inl ((hfirst hr).2 (.inl h)))
      · rcases List.mem_cons.1 hother with rfl | hother
        · have hnew' := (hfirst (hdata _ _ hnew)).2
            (.inr ⟨htracked, new, hnew, hsome, hto, Outlives.Reaches.refl _ _⟩)
          exact (hnew'.mono hbelow).trans hfrom
        · have hto' := (hfirst (.inl rfl)).2 (.inl hto)
          exact (hrest hk).2 (.inr ⟨other, hother, htracked, new, hnew, hsome, hto', hfrom⟩)

end Fields

/-! ## Reading a member -/

/-- The node reads a member, which carries references, of the variable at the path, and has no
result. -/
def MemberRead (env : Env) (u : Path) (name : String) (read : NodeId) (s : State) : Prop :=
  ∃ node base inner fields, env.node read = .ok node ∧ node.expr = .memberAccess base name ∧
    env.node base = .ok inner ∧ inner.expr = .var u ∧ s.flowAt read = none ∧
    s.flowAt base = none ∧
    env.fields inner.ty = .ok fields ∧ (∃ field ∈ fields, field.path = .single name) ∧
    ∀ field ∈ fields, field.path = .single name → field.tracked = true

theorem runs_memberRead {u : Path} {name : String} {read : NodeId} {depth : Nat}
    (hread : MemberRead env u name read s) (h : Runs (analyzeNode env depth .value read) s () s') :
    ∃ flow extent, s'.flowAt read = some flow ∧ flow.bundle.whole? = some extent ∧
      s.frame.lookup? (u.child name) = some extent := by
  obtain ⟨node, base, inner, fields, hnode, hexpr, hinner, hvar, hfresh, hfresh',
    hfields, hmember, htracked⟩ := hread
  obtain ⟨depth₁, node', rfl, hnode', hrule⟩ := runs_analyzeNode h hfresh
  obtain rfl := Except.ok.inj (hnode.symm.trans hnode')
  rw [hexpr] at hrule
  obtain ⟨s₁, flow, hbase, hflow, hfinishes⟩ := runs_readMember hrule
  obtain ⟨depth₂, inner', rfl, hinner', hrule⟩ := runs_analyzeNode hbase hfresh'
  obtain rfl := Except.ok.inj (hinner.symm.trans hinner')
  rw [hvar] at hrule
  obtain ⟨ty, fields', bundle, hty, hfields', hrecorded, hbundle⟩ :=
    runs_readVariable_fields hrule
  have hty' : env.typeOf base = .ok inner.ty := by
    simp [Env.typeOf, hinner, bind, Except.bind, pure, Except.pure]
  obtain rfl := Except.ok.inj (hty'.symm.trans hty)
  obtain rfl := Except.ok.inj (hfields.symm.trans hfields')
  obtain ⟨extent, hextent, hlookup⟩ := hbundle (.single name) hmember htracked
  obtain ⟨escaping, hself⟩ := hrecorded.self
  obtain rfl := Option.some.inj (hflow.symm.trans hself)
  obtain ⟨escaping', hdone⟩ := hfinishes.flowAt
  refine ⟨_, extent, hdone, ?_, hlookup⟩
  rw [Bundle.whole?, Bundle.getElem?_scopedTo]
  simpa using hextent

/-! ## The other members -/

/-- When the analysis of a function comes to an assignment `u.m = e`, then, for every other member
`n` of `u`, with the extent that it has after `e` was evaluated: the extent stays; its roots after
the assignment are those of before, and those of the data assigned to `u.m`, or to a member of it,
in whose slot the data of `u.n` was found to rest; and every read of `u.n` finds the extent, as long
as `u.n` is not bound to another. -/
theorem rootsOf_sibling_after_assign {program : Program} {decls : Declarations} {options : Options}
    {owner : Owner} {function : Function} {context : Context} {depth i j : Nat}
    {target value : NodeId} {nodes : List NodeId} {u : Path} {m n : String}
    (hprecedes : Precedes program decls options context owner)
    (hcomes : ComesTo (.ofFunction decls options owner function) function context id s)
    (hplace : placePath? owner i target = .ok (some (u.child m)))
    (hwalk : owner.walkFrom j target = .ok nodes)
    (hfresh : ∀ node ∈ nodes, s.flowAt node = none)
    (hassign : Runs (assign (.ofFunction decls options owner function)
      (analyzeNode (.ofFunction decls options owner function) depth) id target value) s () s')
    (hne : n ≠ m) :
    ∃ ty fields t flow, (Env.ofFunction decls options owner function).typeOf target = .ok ty ∧
      decls.fields ty = .ok fields ∧
      RunsOperands (.ofFunction decls options owner function) depth target value s t ∧
      t.flowAt value = some flow ∧
      ∀ extent, t.frame.lookup? (u.child n) = some extent →
        s'.frame.lookup? (u.child n) = some extent ∧
        (∀ r, r ∈ s'.context.graph.rootsOf extent.value ↔
          r ∈ t.context.graph.rootsOf extent.value ∨
          ∃ field ∈ fields, field.tracked = true ∧
          ∃ new, flow.bundle[field.path]? = some new ∧ new.value.isNone = false ∧
            t.context.graph.Reaches extent.value (.root (u.child m ++ field.path) .localSlot) ∧
            r ∈ s'.context.graph.rootsOf new.value) ∧
        ∀ s₁ s₂ below read, Grows s' s₁ → s₁.frame.lookup? (u.child n) = some extent →
          MemberRead (.ofFunction decls options owner function) u n read s₁ →
          Runs (analyzeNode (.ofFunction decls options owner function) below .value read) s₁
          () s₂ →
          ∃ found, s₂.flowAt read = some found ∧ found.bundle.whole? = some extent ∧
            ∀ r ∈ s'.context.graph.rootsOf extent.value, r ∈ s₂.context.graph.rootsOf
            extent.value := by
  obtain ⟨hpos, hs⟩ := inv_fresh_of_comesTo hprecedes hcomes
  have hcoherent : s.frame.Coherent :=
    fun path extent hlookup => (hs.frame path extent hlookup).slot
  obtain ⟨-, -, -, -, -, ty, -, -, -, -, -, -, -, hty, -⟩ := runs_assign hassign
  obtain ⟨fields, t, places, assigned, span, t', hfields, hoperands, hplaces,
    hassigned, hslot, hloop,
    hrecorded⟩ := runs_assign_place hcoherent hplace hwalk hfresh hty hassign
  refine ⟨ty, fields, t, assigned, hty, hfields, hoperands, hassigned, fun extent hextent => ?_⟩
  -- The state before the fields are assigned keeps to the discipline.
  obtain ⟨t₀, htarget, hvalue⟩ := hoperands
  have ht := Discipline.inv_of_analyzeNode names_fresh.1
    (Discipline.inv_of_analyzeNode names_fresh.1 hs htarget) hvalue
  have hpos' := Nat.lt_of_lt_of_le hpos ((grows_analyzeNode _ _ _ _ _ _ _ htarget).trans
    (grows_analyzeNode _ _ _ _ _ _ _ hvalue)).nextVersion
  refine ⟨?_, fun r => ?_, fun s₁ s₂ below read hgrows hbound hread hrun => ?_⟩
  · have hlocals := assignsLocals_fields (fun field _ place hplace => by
      rw [hslot field.path place hplace]
      rfl) hloop
    obtain ⟨entries, hentries, hlog⟩ := hlocals.log
    rw [hrecorded.frame, hlocals.kept, hextent]
    rw [rebinds_iff_of_append hentries, hlog]
    rintro ⟨field, -, -, place, hplace, hpath⟩
    rw [hslot field.path place hplace] at hpath
    exact hne (Path.eq_of_child_append_eq (hpath.trans (Path.append_whole _).symm)).symm
  · have hreaches := fun hroot => reaches_assignFields_iff hpos' ht (ht.recorded _ _ hplaces)
      (ht.recorded _ _ hassigned) hslot hloop (.inr (ht.frame _ _ hextent).valid.version)
      (.inl (hroot : r.isRoot = true))
    simp only [Outlives.mem_rootsOf_iff, hrecorded.graph]
    constructor
    · rintro ⟨hreach, hroot, hrest⟩
      rcases (hreaches hroot).1 hreach with
        hreach | ⟨field, hfield, htracked, new, hnew, hsome, hto, hfrom⟩
      · exact .inl ⟨hreach, hroot, hrest⟩
      · exact .inr ⟨field, hfield, htracked, new, hnew, hsome, hto, hfrom, hroot, hrest⟩
    · rintro (⟨hreach, hroot, hrest⟩ |
        ⟨field, hfield, htracked, new, hnew, hsome, hto, hfrom, hroot, hrest⟩)
      · exact ⟨(hreaches hroot).2 (.inl hreach), hroot, hrest⟩
      · refine ⟨(hreaches hroot).2 (.inr ?_), hroot, hrest⟩
        exact ⟨field, hfield, htracked, new, hnew, hsome, hto, hfrom⟩
  · obtain ⟨found, extent', hfound, hwhole, hlookup⟩ := runs_memberRead hread hrun
    obtain rfl := Option.some.inj (hbound.symm.trans hlookup)
    refine ⟨found, hfound, hwhole, fun r hr => ?_⟩
    rw [Outlives.mem_rootsOf_iff] at hr ⊢
    have hlater := hgrows.trans (grows_analyzeNode _ below .value read s₁ () s₂ hrun)
    exact ⟨hr.1.mono hlater.graph, hr.2⟩

/-- `x = 0; u = U(a: new int); u.a = &x; u.b`, where the union `U` has the members `a` and `b`. -/
def sharing : List Item := [
  .aggregate .union "U" [⟨"a", .pointer .int, true⟩, ⟨"b", .pointer .int, true⟩],
  .function "f" [] (.pointer .int) (.block [
    .declare "x" (.literal (.int 0)),
    .declare "u" (.record (.nominal (.single "U") .union) [("a", .newDefault .int)]),
    .assign (.member (.var "u") "a") (.addressOf (.var "x")),
    .member (.var "u") "b"])]

set_option synthInstance.maxSize 256

/-- The function is accepted: after `u.a = &x` the data of `u.b` does not rest on `x`. -/
theorem not_rootsOf_sharing : ∃ assembly results owner function s t flow s' extent,
      Program.ofItems sharing = .ok assembly ∧
      analyze assembly.program assembly.declarations {} = .ok results ∧
      Precedes assembly.program assembly.declarations {} .initial owner ∧
      ComesTo (.ofFunction assembly.declarations {} owner function) function .initial ⟨9⟩ s ∧
      Runs (assign (.ofFunction assembly.declarations {} owner function)
        (analyzeNode (.ofFunction assembly.declarations {} owner function) 2) ⟨9⟩ ⟨6⟩
        ⟨8⟩) s () s' ∧
      RunsOperands (.ofFunction assembly.declarations {} owner function) 2 ⟨6⟩ ⟨8⟩ s t ∧
      t.flowAt ⟨8⟩ = some flow ∧
      flow.bundle.whole? = some (.ofValue (.root ⟨["f", "$block_0", "x"]⟩ .localSlot)) ∧
      s'.frame.lookup? ⟨["f", "$block_0", "u", "b"]⟩ = some extent ∧
      .root ⟨["f", "$block_0", "x"]⟩ .localSlot ∉ s'.context.graph.rootsOf extent.value := by
  have h : AcceptsAt sharing ⟨9⟩ fun env s =>
      placePath? env.owner 2 ⟨6⟩ = .ok (some (Path.child ⟨["f", "$block_0", "u"]⟩ "a")) ∧
      env.owner.walkFrom 2 ⟨6⟩ = .ok [⟨6⟩, ⟨5⟩] ∧
      env.typeOf ⟨6⟩ = .ok (.pointer .int) ∧
      env.fields (.pointer .int) = .ok [⟨.whole, .pointer .int, true⟩] ∧
      (∀ id ∈ [(⟨6⟩ : NodeId), ⟨5⟩], s.flowAt id = none) ∧
      ∃ s', Runs (assign env (analyzeNode env 2) ⟨9⟩ ⟨6⟩ ⟨8⟩) s () s' ∧
      ∃ t₀, Runs (analyzeNode env 2 .place ⟨6⟩) s () t₀ ∧
      ∃ t, Runs (analyzeNode env 2 .value ⟨8⟩) t₀ () t ∧
        (∃ flow, t.flowAt ⟨8⟩ = some flow ∧ flow.bundle.whole? =
          some (.ofValue (.root ⟨["f", "$block_0", "x"]⟩ .localSlot))) ∧
        t.frame.lookup? ⟨["f", "$block_0", "u", "b"]⟩ = some
          ⟨⟨⟨["f", "$block_0", "u", "b"]⟩, 0, .alias, .localValue⟩,
            .root ⟨["f", "$block_0", "u", "b"]⟩ .localSlot⟩ ∧
        .root ⟨["f", "$block_0", "x"]⟩ .localSlot ∉ t.context.graph.rootsOf
          ⟨⟨["f", "$block_0", "u", "b"]⟩, 0, .alias, .localValue⟩ ∧
        .root ⟨["f", "$block_0", "u", "a"]⟩ .localSlot ∉ t.context.graph.supportOf
          ⟨⟨["f", "$block_0", "u", "b"]⟩, 0, .alias, .localValue⟩ := by
    decide +kernel
  obtain ⟨assembly, hitems, results, haccepted, owner, -, honly, function, -, s, hcomes,
    hplace, hwalk, hty,
    hfields, hfresh, s', hassign, t₀, htarget, t, hvalue, ⟨flow, hflow, hwhole⟩, hextent,
    hroots, hsupport⟩ := h
  have hprecedes := precedes_of_only assembly.declarations {} honly
  obtain ⟨ty, fields, t', flow', hty', hfields', ⟨t₀', htarget', hvalue'⟩,
      hflow', hall⟩ :=
    rootsOf_sibling_after_assign (n := "b") hprecedes hcomes hplace hwalk hfresh
      hassign (by decide)
  obtain ⟨-, rfl⟩ := htarget.det htarget'
  obtain ⟨-, rfl⟩ := hvalue.det hvalue'
  obtain ⟨hkept, hiff, -⟩ := hall _ hextent
  obtain rfl := Except.ok.inj (hty.symm.trans hty')
  obtain rfl := Except.ok.inj (hfields.symm.trans hfields')
  refine ⟨assembly, results, owner, function, s, t, flow, s', _, hitems, haccepted,
    hprecedes, hcomes, hassign, ⟨t₀, htarget, hvalue⟩, hflow, hwhole, hkept, fun hmem => ?_⟩
  rcases (hiff _).1 hmem with hmem | ⟨field, hfield, -, _, _, _, hreach, _⟩
  · exact hroots hmem
  · obtain rfl := List.mem_singleton.1 hfield
    exact hsupport ((Outlives.reaches_iff_mem_supportOf (by decide)).1 hreach)

end Regions.Flow
