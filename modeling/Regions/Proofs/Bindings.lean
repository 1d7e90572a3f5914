import Regions.Proofs.Points

/-!
# Bindings of variables

What the frame has for a path always speaks of that path: the storage is the slot of the path, and
the data is a version of the path that sits in the slot. This holds at every point of an analysis,
in the current scope and in the scopes around it, whether or not the analysis ends well.

* `Sourced`: where the extents of a result come from;
* `Result.inherits`: what the lifetimes of a result have, if those of variables and operands have
  it;
* `Anchored`: a binding speaks of its path;
* `Coherent`: all bindings do, and slots that are referred to are regions;
* `anchored_of_point`: the state is coherent at every point.
-/

namespace Regions

open Std

variable {id : NodeId} {bundle : Bundle} {m : Path} {env : Env} {ty : Ty} {expr : Expr}
  {position : Position}

/-! ## Properties of all bindings -/

/-- All bindings, in the current scope and in the scopes around it, have the property. -/
def Frame.All (frame : Frame) (B : Path → Extent → Prop) : Prop :=
  ∀ scope ∈ frame.scopes, ∀ (path : Path) extent, scope.bindings[path]? = some extent →
    B path extent

namespace Frame.All

variable {frame inner after : Frame} {B C : Path → Extent → Prop} {path : Path}
  {extent : Extent}

theorem imp (h : frame.All B) (himp : ∀ path extent, B path extent → C path extent) :
    frame.All C :=
  fun scope hscope path extent hbinding => himp path extent (h scope hscope path extent hbinding)

theorem lookup (h : frame.All B) (hlookup : frame.lookup? path = some extent) : B path extent := by
  obtain ⟨scope, hscope, hbinding⟩ := List.exists_of_findSome?_eq_some hlookup
  exact h scope hscope path extent hbinding

theorem insert (h : frame.All B) (hextent : B path extent)
    (henclosing : after.enclosing = frame.enclosing)
    (hbindings : after.innermost.bindings = frame.innermost.bindings.insert path extent) :
    after.All B := by
  intro scope hscope other found hfound
  rcases List.mem_cons.1 hscope with rfl | hscope
  · rw [hbindings, ExtTreeMap.getElem?_insert] at hfound
    split at hfound
    · rename_i heq
      obtain rfl := Std.compare_eq_iff_eq.1 heq
      cases hfound
      exact hextent
    · exact h _ List.mem_cons_self other found hfound
  · rw [henclosing] at hscope
    exact h scope (List.mem_cons_of_mem _ hscope) other found hfound

theorem declare (h : frame.All B) (hextent : B path extent) : (frame.declare path extent).All B :=
  h.insert hextent rfl rfl

theorem rebind (h : frame.All B) (hextent : B path extent)
    (hrebind : frame.rebind path extent = .ok after) : after.All B := by
  unfold Frame.rebind at hrebind
  split at hrebind
  · cases hrebind
    exact h.insert hextent rfl rfl
  · cases hrebind

/-- A path that gets a new binding was visible. -/
theorem rebindVisible {V : Path → Prop} (h : frame.All fun path _ => V path)
    (hrebind : frame.rebind path extent = .ok after) : after.All fun path _ => V path := by
  obtain ⟨-, -, before, hbefore⟩ := Frame.rebind_scopes hrebind
  exact h.rebind (h.lookup hbefore) hrebind

theorem enter (h : frame.All B) {enter : Frame → Frame}
    (henter : enter = Frame.child ∨ enter = Frame.loopBody) : (enter frame).All B := by
  have hscopes : (enter frame).scopes = .empty :: frame.scopes := by
    rcases henter with rfl | rfl <;> rfl
  intro scope hscope path extent hbinding
  rw [hscopes] at hscope
  rcases List.mem_cons.1 hscope with rfl | hscope
  · simp [Scope.empty] at hbinding
  · exact h scope hscope path extent hbinding

/-- The outer frame only takes over bindings of the scope that is left. -/
theorem absorb (h : frame.All B) (hinner : inner.All B) (hframe : frame.Absorbs inner after) :
    after.All B := by
  intro scope hscope path extent hbinding
  rcases List.mem_cons.1 hscope with rfl | hscope
  · rcases hframe.bindings path with hsame | ⟨changed, hchanged, hsome⟩
    · rw [hsame] at hbinding
      exact h _ List.mem_cons_self path extent hbinding
    · rw [hsome] at hbinding
      cases hbinding
      exact hinner _ List.mem_cons_self path extent (Frame.getElem?_rebindings_eq_some.1 hchanged).2
  · rw [hframe.enclosing] at hscope
    exact h scope (List.mem_cons_of_mem _ hscope) path extent hbinding

end Frame.All

namespace Flow

variable {X : Setting} {p p' : Progress X} {s s' : State} {extent : Extent} {frame : Frame}
  {l : Lifetime} {path : Path}

theorem frame_all_start (context : Context) (size : Nat) (B : Path → Extent → Prop) :
    (State.start context size).frame.All B := by
  intro scope hscope path extent hbinding
  obtain rfl := List.mem_singleton.1 hscope
  simp [State.start, Frame.root, Scope.empty] at hbinding

/-- All extents in the results of nodes have the property. -/
def State.Results (s : State) (R : NodeId → Path → Extent → Prop) : Prop :=
  ∀ id flow, s.flowAt id = some flow →
    ∀ (m : Path) extent, flow.bundle[m]? = some extent → R id m extent

namespace State.Results

variable {R C : NodeId → Path → Extent → Prop}

theorem imp (h : s.Results R) (himp : ∀ id m extent, R id m extent → C id m extent) :
    s.Results C :=
  fun id flow hflow m extent hm => himp id m extent (h id flow hflow m extent hm)

theorem of_flowAt_eq (h : s.Results R) (hflow : ∀ id, s'.flowAt id = s.flowAt id) :
    s'.Results R := by
  intro id flow hid
  rw [hflow] at hid
  exact h id flow hid

theorem record (h : s.Results R) {escaping : PathSet}
    (hrun : Runs (Flow.record id bundle escaping) s () s')
    (hbundle : ∀ (m : Path) extent, bundle[m]? = some extent → R id m extent) :
    s'.Results R := by
  obtain ⟨-, -, -, hflow⟩ := runs_record hrun
  intro other flow hother m extent hm
  rw [hflow other] at hother
  split at hother
  · rename_i heq
    cases hother
    exact heq ▸ hbundle m extent hm
  · exact h other flow hother m extent hm

theorem start (context : Context) (size : Nat) : (State.start context size).Results R := by
  intro id flow hflow
  simp [flowAt_start] at hflow

end State.Results

/-! ## Where extents come from -/

/-- Where an extent of the result of a node comes from. Each is that of a member of the type. -/
inductive Sourced (env : Env) (s : State) (id : NodeId) (ty : Ty) :
    Position → Expr → Path → Extent → Prop
  /-- An operator, a struct literal or a field without references. -/
  | untracked {expr : Expr} {m : Path} (h : (∃ value, expr = .literal value) ∨
      (∃ op operand, expr = .unary op operand) ∨ (∃ op lhs rhs, expr = .binary op lhs rhs) ∨
      env.tracked ty = .ok false ∨
        ∃ fields, env.fields ty = .ok fields ∧ ∃ field ∈ fields, field.path = m ∧
        field.tracked = false) :
      Sourced env s id ty .value expr m .untracked
  /-- A variable that is read. -/
  | read {x : Path} {fields : List Field} {field : Field} {extent : Extent}
      (hfields : env.fields ty = .ok fields) (hfield : field ∈ fields)
      (htracked : field.tracked = true)
      (hlookup : s.frame.lookup? (x ++ field.path) = some extent) :
      Sourced env s id ty .value (.var x) field.path extent
  /-- A variable that is named. -/
  | named {x : Path} {members : List (Path × Ty)} {member : Path × Ty} {extent : Extent}
      (hmembers : env.declarations.members ty = .ok members) (hmember : member ∈ members)
      (hlookup : s.frame.lookup? (x ++ member.1) = some extent) :
      Sourced env s id ty .place (.var x) member.1 extent
  /-- The one variable that a reference must refer to. -/
  | resolved {position : Position} {expr : Expr} {kind : String} {pointer extent : Extent}
      {home : Lifetime}
      {fields : List Field} {field : Field} (hpointer : Pointer s expr kind pointer)
      (hhome : pointee? env s pointer = some home) (hfields : env.fields ty = .ok fields)
      (hfield : field ∈ fields) (htracked : position = .value → field.tracked = true)
      (hlookup : s.frame.lookup? (home.path ++ field.path) = some extent) :
      Sourced env s id ty position expr field.path extent
  /-- What is read through a reference. -/
  | fetched {expr : Expr} {kind : String} {pointer : Extent} {fields : List Field} {field : Field}
      (hpointer : Pointer s expr kind pointer) (hfields : env.fields ty = .ok fields)
      (hfield : field ∈ fields) (htracked : field.tracked = true)
      (hregion : env.readAt kind id field ∈ s.context.roots) :
      Sourced env s id ty .value expr field.path (.ofValue (env.readAt kind id field))
  /-- The storage behind a reference. -/
  | behind {expr : Expr} {kind : String} {pointer : Extent} {fields : List Field} {field : Field}
      (hpointer : Pointer s expr kind pointer) (hfields : env.fields ty = .ok fields)
      (hfield : field ∈ fields) :
      Sourced env s id ty .place expr field.path (env.behind kind id pointer field)
  | member {position : Position} {target : NodeId} {name : String} {flow : NodeFlow} {m : Path}
      {extent : Extent} (hflow : s.flowAt target = some flow)
      (hextent : flow.bundle[Path.single name ++ m]? = some extent) :
      Sourced env s id ty position (.memberAccess target name) m extent
  /-- The address of a place. -/
  | address {target : NodeId} {flow : NodeFlow} {extent : Extent}
      (hflow : s.flowAt target = some flow)
      (hwhole : flow.bundle.whole? = some extent) (hsome : extent.slot.isNone = false)
      (hexposed : extent.slot.isSlot = true → extent.slot.path ∈ s.context.exposed) :
      Sourced env s id ty .value (.addressOf target) .whole (.ofValue extent.slot)
  | allocated {initializer : Option NodeId} (hregion : env.allocation id ∈ s.context.roots) :
      Sourced env s id ty .value (.new initializer) .whole (.ofValue (env.allocation id))
  /-- A field that a struct literal gives. -/
  | inserted {fields : List (String × NodeId)} {field : String × NodeId}
      {flow : NodeFlow} {n : Path}
      {extent : Extent} (htracked : env.tracked ty = .ok true) (hfield : field ∈ fields)
      (hflow : s.flowAt field.2 = some flow) (hextent : flow.bundle[n]? = some extent) :
      Sourced env s id ty .value (.structLiteral fields) (.single field.1 ++ n)
        (.ofValue extent.value)
  /-- A field that a struct literal does not give, or the literal as a whole. -/
  | shared {fields : List (String × NodeId)} {members : List Field} {field : Field}
      (htracked : env.tracked ty = .ok true) (hmembers : env.fields ty = .ok members)
      (hfield : field ∈ members) (hpath : field.path = .whole ∨ field.tracked = true) :
      Sourced env s id ty .value (.structLiteral fields) field.path (.ofValue (env.literalAt id))
  | called {function : Path} {arguments : List NodeId} {fields : List Field} {field : Field}
      (hfields : env.fields ty = .ok fields) (hfield : field ∈ fields)
      (htracked : field.tracked = true)
      (hregion : .root (env.tempPath "call" id) .heap ∈ s.context.roots) :
      Sourced env s id ty .value (.call function arguments) field.path
        (.ofValue (.root (env.tempPath "call" id) .heap))
  /-- The last statement of a block. -/
  | result {statements : List NodeId} {last : NodeId} {flow : NodeFlow} {m : Path} {extent : Extent}
      (hvoid : ty.isVoid = false) (hlast : statements.getLast? = some last)
      (hflow : s.flowAt last = some flow) (hextent : flow.bundle[m]? = some extent) :
      Sourced env s id ty .value (.block statements) m extent
  /-- What either branch gives. -/
  | joined {condition positive : NodeId} {negative : Option NodeId} {fields : List Field}
      {field : Field} (hfields : env.fields ty = .ok fields) (hfield : field ∈ fields)
      (htracked : field.tracked = true) :
      Sourced env s id ty .value (.cond condition positive negative) field.path
        (.ofValue (env.joinedAt id field))

theorem Lists.exists_of_getElem? {α : Type} {fields : List α} {P : α → Path × Extent → Prop}
    (h : Lists fields P bundle) (hm : bundle[m]? = some extent) :
    ∃ field ∈ fields, P field (m, extent) := by
  obtain ⟨entries, hentries, rfl⟩ := h
  obtain ⟨n, hn, hget⟩ := List.getElem_of_mem (mem_of_getElem?_ofList hm)
  have hn' : n < fields.length := by rwa [hentries.length_eq]
  refine ⟨fields[n], List.getElem_mem hn', ?_⟩
  have hrel := List.Forall₂.get hentries hn' hn
  simpa [hget] using hrel

/-- The extents of a bundle that lists one for each field. -/
theorem exists_of_getElem?_ofList_map {α : Type} {fields : List α} {path : α → Path}
    {extentOf : α → Extent}
    (hm : (ExtTreeMap.ofList (fields.map fun field => (path field, extentOf field)) compare)[m]? =
      some extent) : ∃ field ∈ fields, path field = m ∧ extentOf field = extent := by
  have hmem := mem_of_getElem?_ofList hm
  obtain ⟨field, hfield, heq⟩ := List.mem_map.1 hmem
  cases heq
  exact ⟨field, hfield, rfl, rfl⟩

theorem exists_of_aliasBundle? {home : Path} {access : Access} {fields : List Field}
    (h : aliasBundle? frame home access fields = some bundle) (hm : bundle[m]? = some extent) :
    ∃ field ∈ fields, ∃ found, field.path = m ∧ frame.lookup? (home ++ m) = some found ∧
      extent = if access = .read ∧ !field.tracked then .untracked else found := by
  obtain ⟨entries, hentries, hbundle⟩ := Option.bind_eq_some_iff.1 h
  cases hbundle
  obtain ⟨field, hfield, hentry⟩ :=
    forall₂_mem_right (forall₂_of_mapM_some hentries) (mem_of_getElem?_ofList hm)
  obtain ⟨found, hfound, hentry⟩ := Option.bind_eq_some_iff.1 hentry
  cases hentry
  exact ⟨field, hfield, found, rfl, hfound, rfl⟩

theorem Accessed.sourced {kind : String} {pointer : Extent} {fields : List Field}
    (hpointer : Pointer s expr kind pointer) (hfields : env.fields ty = .ok fields)
    (h : Accessed env s id kind pointer fields position bundle)
    (hm : bundle[m]? = some extent) : Sourced env s id ty position expr m extent := by
  cases h with
  | resolved haccess hhome hbundle =>
    obtain ⟨field, hfield, found, rfl, hfound, rfl⟩ := exists_of_aliasBundle? hbundle hm
    split
    · rename_i huntracked
      rw [haccess.1 huntracked.1]
      exact .untracked (.inr (.inr (.inr (.inr ⟨fields, hfields, field, hfield, rfl,
        by simpa using huntracked.2⟩))))
    · rename_i htracked
      refine .resolved hpointer hhome hfields hfield (fun hposition => ?_) hfound
      simpa [haccess.2 hposition] using htracked
  | read hregions =>
    obtain ⟨field, hfield, rfl, rfl⟩ := exists_of_getElem?_ofList_map hm
    split
    · rename_i htracked
      exact .fetched hpointer hfields hfield htracked (hregions field hfield htracked)
    · rename_i huntracked
      exact .untracked (.inr (.inr (.inr (.inr ⟨fields, hfields, field, hfield, rfl,
        (Bool.not_eq_true _).mp huntracked⟩))))
  | written =>
    obtain ⟨field, hfield, rfl, rfl⟩ := exists_of_getElem?_ofList_map hm
    exact .behind hpointer hfields hfield

theorem untracked_of_untrackedBundle (h : untrackedBundle env ty = .ok bundle)
    (hm : bundle[m]? = some extent) : extent = .untracked := by
  obtain ⟨members, -, hbundle⟩ := except_bind_eq_ok h
  cases hbundle
  obtain ⟨member, -, -, rfl⟩ := exists_of_getElem?_ofList_map hm
  rfl

theorem exists_of_getElem?_defaults {whole : Lifetime} {members : List Field} {given : Bundle}
    (h : (members.foldl (fun bundle field =>
      bundle.insertIfNew field.path (defaultExtent whole field)) given)[m]? = some extent) :
    given[m]? = some extent ∨ ∃ field ∈ members, field.path = m ∧
    extent = defaultExtent whole field := by
  induction members generalizing given with
  | nil => exact .inl h
  | cons field members ih =>
    rcases ih h with hgiven | ⟨other, hother, hpath, hextent⟩
    · rw [ExtTreeMap.getElem?_insertIfNew] at hgiven
      split at hgiven
      · rename_i hnew
        cases hgiven
        exact .inr ⟨field, List.mem_cons_self, Std.compare_eq_iff_eq.1 hnew.1, rfl⟩
      · exact .inl hgiven
    · exact .inr ⟨other, List.mem_cons_of_mem _ hother, hpath, hextent⟩

/-- An extent of a struct literal that carries references is that of a field, or is shared by the
members that are not given. -/
theorem LiteralBundle.exists_of_getElem? {fields : List (String × NodeId)}
    (h : LiteralBundle env s id ty fields bundle) (hm : bundle[m]? = some extent) :
    (env.tracked ty = .ok false ∧ extent = .untracked) ∨ env.tracked ty = .ok true ∧
      ((∃ members, ∃ field ∈ members, env.fields ty = .ok members ∧ field.path = m ∧
          extent = defaultExtent (env.literalAt id) field) ∨
        ∃ field ∈ fields, ∃ flow n found, s.flowAt field.2 = some flow ∧
        flow.bundle[n]? = some found ∧
          m = .single field.1 ++ n ∧ extent = .ofValue found.value) := by
  rcases h
    with ⟨htracked, hbundle⟩ | ⟨htracked, entries, members, hmembers, hentries, rfl, -⟩
  · exact .inl ⟨htracked, untracked_of_untrackedBundle hbundle hm⟩
  · refine .inr ⟨htracked, ?_⟩
    rcases exists_of_getElem?_defaults hm with hgiven | ⟨field, hfield, hpath, hextent⟩
    · obtain ⟨part, hpart, hmem⟩ := List.mem_flatten.1 (mem_of_getElem?_ofList hgiven)
      obtain ⟨field, hfield, flow, hflow, rfl⟩ := forall₂_mem_right hentries hpart
      obtain ⟨⟨n, found⟩, hfound, heq⟩ := List.mem_map.1 hmem
      cases heq
      exact .inr ⟨field, hfield, flow, n, found, hflow,
        ExtTreeMap.mem_toList_iff_getElem?_eq_some.1 hfound, rfl, rfl⟩
    · exact .inl ⟨members, field, hfield, hmembers, hpath, hextent⟩

/-- Every extent of a result has a source. -/
theorem Result.sourced (h : Result env s id ty position expr bundle)
    (hm : bundle[m]? = some extent) : Sourced env s id ty position expr m extent := by
  have hmember : ∀ target name, expr = .memberAccess target name → (∃ flow members,
      s.flowAt target = some flow ∧ bundle = flow.bundle.scopedTo (.single name) ∧
        bundle.whole?.isNone = false ∧ env.declarations.members ty = .ok members ∧
        bundle.size = members.length) → Sourced env s id ty position expr m extent := by
    rintro target name rfl ⟨flow, members, hflow, rfl, -⟩
    rw [Bundle.getElem?_scopedTo] at hm
    exact .member hflow hm
  have hempty : bundle = ∅ → Sourced env s id ty position expr m extent := by
    rintro rfl
    simp at hm
  have hplain : ∀ {fields : List Field} {field : Field}, env.fields ty = .ok fields →
    field ∈ fields →
      field.tracked ≠ true → Sourced env s id ty .value expr field.path .untracked := by
    intro fields field hfields hfield huntracked
    exact .untracked (.inr (.inr (.inr (.inr ⟨fields, hfields, field, hfield, rfl,
      (Bool.not_eq_true _).mp huntracked⟩))))
  cases position with
  | value =>
    cases expr with
    | literal value =>
      rw [untracked_of_untrackedBundle h hm]
      exact .untracked (.inl ⟨value, rfl⟩)
    | unary op operand =>
      rw [untracked_of_untrackedBundle h hm]
      exact .untracked (.inr (.inl ⟨op, operand, rfl⟩))
    | binary op lhs rhs =>
      rw [untracked_of_untrackedBundle h hm]
      exact .untracked (.inr (.inr (.inl ⟨op, lhs, rhs, rfl⟩)))
    | var path =>
      obtain ⟨fields, hfields, hlists⟩ := h
      obtain ⟨field, hfield, rfl, hentry⟩ := hlists.exists_of_getElem? hm
      split at hentry
      · rename_i htracked
        exact .read hfields hfield htracked hentry
      · rename_i huntracked
        cases hentry
        exact hplain hfields hfield huntracked
    | addressOf target =>
      obtain ⟨flow, found, hflow, hwhole, hsome, hexposed, rfl⟩ := h
      obtain ⟨_, heq⟩ := List.mem_singleton.1 (mem_of_getElem?_ofList hm)
      exact .address hflow hwhole hsome hexposed
    | dereference target | index target subscript =>
      obtain ⟨kind, pointer, fields, hpointer, hfields, haccessed⟩ := h
      exact haccessed.sourced hpointer hfields hm
    | memberAccess target name => exact hmember target name rfl h
    | new initializer =>
      obtain ⟨rfl, hregion⟩ := h
      obtain ⟨_, heq⟩ := List.mem_singleton.1 (mem_of_getElem?_ofList hm)
      exact .allocated hregion
    | structLiteral fields =>
      rcases LiteralBundle.exists_of_getElem? h hm with ⟨huntracked, rfl⟩ | ⟨htracked,
        ⟨members, field, hfield, hmembers, rfl, rfl⟩ |
        ⟨field, hfield, flow, n, found, hflow, hfound, rfl, rfl⟩⟩
      · exact .untracked (.inr (.inr (.inr (.inl huntracked))))
      · unfold defaultExtent
        split
        · rename_i hpath
          exact .shared htracked hmembers hfield hpath
        · rename_i hpath
          exact hplain hmembers hfield fun htracked => hpath (.inr htracked)
      · exact .inserted htracked hfield hflow hfound
    | call function arguments =>
      obtain ⟨fields, hfields, rfl, hregions⟩ := h
      obtain ⟨field, hfield, rfl, rfl⟩ := exists_of_getElem?_ofList_map hm
      split
      · rename_i htracked
        exact .called hfields hfield htracked (hregions field hfield htracked)
      · rename_i huntracked
        exact hplain hfields hfield huntracked
    | block statements =>
      rcases h with ⟨-, hbundle⟩ | ⟨hvoid, last, flow, hlast, hflow, rfl⟩
      · exact hempty hbundle
      · exact .result hvoid hlast hflow hm
    | cond condition positive negative =>
      rcases h with ⟨-, hbundle⟩ | ⟨-, fields, hfields, rfl⟩
      · exact hempty hbundle
      · obtain ⟨field, hfield, rfl, rfl⟩ := exists_of_getElem?_ofList_map hm
        split
        · rename_i htracked
          exact .joined hfields hfield htracked
        · rename_i huntracked
          exact hplain hfields hfield huntracked
    | declaration path value => exact hempty h.1
    | assignment target value => exact hempty h
    | loop condition body => exact hempty h
    | breakLoop => exact hempty h
    | continueLoop => exact hempty h
  | place =>
    cases expr with
    | var path =>
      obtain ⟨members, hmembers, hlists⟩ := h
      obtain ⟨member, hmem, rfl, hlookup⟩ := hlists.exists_of_getElem? hm
      exact .named hmembers hmem hlookup
    | dereference target | index target subscript =>
      obtain ⟨kind, pointer, fields, hpointer, hfields, haccessed⟩ := h
      exact haccessed.sourced hpointer hfields hm
    | memberAccess target name => exact hmember target name rfl h
    | _ => exact h.elim

/-- A lifetime that the rule of a node makes, or none at all. -/
inductive MadeAt (env : Env) (s : State) (id : NodeId) : Lifetime → Prop
  | none : MadeAt env s id .none
  | temp (kind : String) (m : Path) {role : Role} (hrole : role ≠ .root) :
      MadeAt env s id { path := env.tempPath kind id ++ m, role, origin := .temporary }
  | region (kind : String) (m : Path) {origin : Origin}
      (horigin : origin = .temporary ∨ origin = .heap)
      (h : .root (env.tempPath kind id ++ m) origin ∈ s.context.roots) :
      MadeAt env s id (.root (env.tempPath kind id ++ m) origin)

theorem MadeAt.isSlot (h : MadeAt env s id l) : l.isSlot = false := by
  cases h with
  | region _ _ horigin => rcases horigin with rfl | rfl <;> rfl
  | _ => rfl

/-- The lifetimes of a result are made by the rule of the node, or are those of variables or
operands. -/
theorem Result.inherits {P : Lifetime → Prop} (h : Result env s id ty position expr bundle)
    (hmade : ∀ l, MadeAt env s id l → P l)
    (hlookup : ∀ path extent, s.frame.lookup? path = some extent → P extent.value ∧
      P extent.slot)
    (hoperand : ∀ child ∈ expr.children, ∀ flow, s.flowAt child = some flow →
      ∀ (m : Path) extent, flow.bundle[m]? = some extent → P extent.value ∧ P extent.slot)
    (hm : bundle[m]? = some extent) : P extent.value ∧ P extent.slot := by
  have hwhole : ∀ kind, env.tempPath kind id = env.tempPath kind id ++ .whole :=
    fun kind => (Path.append_whole _).symm
  have hnone := hmade _ .none
  cases h.sourced hm with
  | untracked => exact ⟨hnone, hnone⟩
  | read _ _ _ hfound | named _ _ hfound | resolved _ _ _ _ _ hfound => exact hlookup _ _ hfound
  | fetched _ _ _ _ hregion => exact ⟨hmade _ (.region _ _ (.inl rfl) hregion), hnone⟩
  | @behind _ kind pointer _ field hpointer =>
    refine ⟨hmade _ ?_, ?_⟩
    · unfold Env.behind
      dsimp only
      split
      · exact .temp _ _ (by simp)
      · exact .none
    · cases hpointer with
      | dereference hflow hpointer | index hflow hpointer =>
        exact (hoperand _ (by simp [Expr.children]) _ hflow _ _ hpointer).1
  | member hflow hextent => exact hoperand _ (by simp [Expr.children]) _ hflow _ _ hextent
  | address hflow hextent =>
      exact ⟨(hoperand _ (by simp [Expr.children]) _ hflow _ _ hextent).2, hnone⟩
  | allocated hregion =>
    rw [Env.allocation, hwhole] at hregion ⊢
    exact ⟨hmade _ (.region _ _ (.inr rfl) hregion), hnone⟩
  | inserted _ hfield hflow hextent =>
    exact ⟨(hoperand _ (List.mem_map_of_mem hfield) _ hflow _ _ hextent).1, hnone⟩
  | shared =>
    rw [Env.literalAt, hwhole]
    exact ⟨hmade _ (.temp _ _ (by simp)), hnone⟩
  | called _ _ _ hregion =>
    rw [hwhole] at hregion ⊢
    exact ⟨hmade _ (.region _ _ (.inr rfl) hregion), hnone⟩
  | result _ hlast hflow hextent =>
      exact hoperand _ (List.mem_of_getLast? hlast) _ hflow _ _ hextent
  | joined => exact ⟨hmade _ (.temp _ _ (by simp)), hnone⟩

/-! ## Bindings that speak of their paths -/

/-- What the frame has for a path: its slot, and no data or a version of the path that sits in the
slot. -/
structure Anchored (context : Context) (path : Path) (extent : Extent) : Prop where
  slot : extent.slot = .root path .localSlot
  region : extent.slot ∈ context.roots
  value : extent.value = .none ∨ extent.value.path = path ∧ extent.value.origin = .localValue
  stored : extent.value ≠ .none → context.graph.Holds extent.slot extent.value

/-- If the lifetime is that of a variable's storage, then it is a region. -/
def Rooted (context : Context) (l : Lifetime) : Prop :=
  l.isSlot = true → l = .root l.path .localSlot ∧ l ∈ context.roots

/-- All bindings speak of their paths, and all slots in results are regions. -/
structure Coherent (s : State) : Prop where
  bindings : s.frame.All (Anchored s.context)
  results : s.Results fun _ _ extent => Rooted s.context extent.value ∧
    Rooted s.context extent.slot

theorem Anchored.later (h : Anchored s.context path extent)
    (hgrows : Grows s s') : Anchored s'.context path extent where
  slot := h.slot
  region := hgrows.roots _ h.region
  value := h.value
  stored := fun hvalue => hgrows.graph _ _ (h.stored hvalue)

theorem Anchored.isSlot_value {context : Context}
    (h : Anchored context path extent) : extent.value.isSlot = false := by
  rcases h.value with hnone | ⟨-, horigin⟩
  · simp [hnone, Lifetime.isSlot, Lifetime.none]
  · simp [Lifetime.isSlot, horigin]

theorem rooted_of_isSlot_eq_false {context : Context} (h : l.isSlot = false) :
    Rooted context l := by
  intro hslot
  simp [h] at hslot

theorem Rooted.later (h : Rooted s.context l) (hgrows : Grows s s') : Rooted s'.context l :=
  fun hslot => ⟨(h hslot).1, hgrows.roots _ (h hslot).2⟩

/-- A new version of a path is not in its own slot by accident: the two differ. -/
theorem relevant_nextVersionOf {slot : Lifetime} (h : slot = .root path .localSlot) :
    Outlives.Relevant (s.nextVersionOf path) slot := by
  subst h
  simp [Outlives.Relevant, State.nextVersionOf, Lifetime.root, Lifetime.isNone]

namespace Coherent

theorem later (h : Coherent s) (hgrows : Grows s s') : s.frame.All (Anchored s'.context) ∧
      s.Results fun _ _ extent => Rooted s'.context extent.value ∧
      Rooted s'.context extent.slot :=
  ⟨h.bindings.imp fun _ _ hextent => hextent.later hgrows,
    h.results.imp fun _ _ _ hextent => ⟨hextent.1.later hgrows, hextent.2.later hgrows⟩⟩

theorem of_frame_eq (h : Coherent s) (hgrows : Grows s s') (hframe : s'.frame = s.frame)
    (hflow : ∀ id, s'.flowAt id = s.flowAt id) : Coherent s' :=
  ⟨hframe ▸ (h.later hgrows).1, (h.later hgrows).2.of_flowAt_eq hflow⟩

theorem declare (h : Coherent s) (hgrows : Grows s s')
    (hframe : s'.frame = s.frame.declare path extent) (hflow : ∀ id, s'.flowAt id = s.flowAt id)
    (hextent : Anchored s'.context path extent) : Coherent s' :=
  ⟨hframe ▸ (h.later hgrows).1.declare hextent, (h.later hgrows).2.of_flowAt_eq hflow⟩

theorem adopted (h : Coherent s) {slot : Lifetime} {graph : Outlives}
    (hgrows : Grows s (s.adopted path graph frame))
    (hframe : s.frame.rebind path ⟨s.nextVersionOf path, slot⟩ = .ok frame)
    (hslot : slot = .root path .localSlot) (hregion : slot ∈ s.context.roots)
    (hstored : graph.Holds slot (s.nextVersionOf path)) :
    Coherent (s.adopted path graph frame) where
  bindings := by
    refine (h.later hgrows).1.rebind ?_ hframe
    exact ⟨hslot, hregion, .inr ⟨rfl, rfl⟩, fun _ => hstored⟩
  results := (h.later hgrows).2

/-- What a result has is sound if what the state had before is. -/
theorem record (h : Coherent s) {escaping : PathSet}
    (hresult : Result X.env s id ty position expr bundle)
    (hrun : Runs (Flow.record id bundle escaping) s () s') : Coherent s' := by
  obtain ⟨-, hcontext, hframe, -⟩ := runs_record hrun
  refine ⟨hframe ▸ hcontext ▸ h.bindings,
    hcontext ▸ h.results.record hrun fun m extent hm => ?_⟩
  refine hresult.inherits (fun l hl => rooted_of_isSlot_eq_false hl.isSlot)
    (fun path extent hlookup => ?_)
    (fun child _ flow hflow m extent hextent => h.results child flow hflow m extent hextent) hm
  have hanchored := h.bindings.lookup hlookup
  refine ⟨rooted_of_isSlot_eq_false hanchored.isSlot_value, fun _ => ?_⟩
  rw [hanchored.slot]
  exact ⟨rfl, hanchored.slot ▸ hanchored.region⟩

theorem enter (h : Coherent s) {inner : Frame → Frame}
    (hinner : inner = Frame.child ∨ inner = Frame.loopBody) :
    Coherent { s with frame := inner s.frame } :=
  ⟨h.bindings.enter hinner, h.results⟩

theorem absorb {inner : State} (houter : Coherent s) (h : Coherent inner)
    (hgrows : Grows s inner) (hframe : s.frame.Absorbs inner.frame frame) :
    Coherent { inner with frame } :=
  ⟨(houter.later hgrows).1.absorb h.bindings hframe, h.results⟩

end Coherent

theorem coherent_start (context : Context) (size : Nat) : Coherent (.start context size) :=
  ⟨frame_all_start context size _, .start context size⟩

/-- What a place is written to is a version of the variable of its slot. -/
theorem Assigning.rooted {task : Task X} {field : Field} {place new : Extent}
    (h : Assigning s task field place new) (hs : Coherent s) : Rooted s.context place.slot := by
  obtain ⟨target, value, places, assigned, ty, fields, -, htarget, -, -, -, -, hplace, -⟩ :=
    h.operands
  exact (hs.results target places htarget field.path place hplace).2

theorem Step.coherent (h : Step X p s p' s') (hs : Coherent s) : Coherent s' := by
  have hgrows := h.grows
  cases h with
  | begin | skip => exact hs
  | note | region | expose | store | returned | through | hidden =>
    exact hs.of_frame_eq hgrows rfl fun _ => rfl
  | @declared task joins s path field initial hdeclaring htracked hslot =>
    refine hs.declare hgrows rfl (fun _ => rfl) ⟨rfl, hslot, .inr ⟨rfl, rfl⟩, fun _ => ?_⟩
    exact Outlives.holds_store_iff.2 (.inl ⟨rfl, rfl, by simp [Outlives.Relevant, Lifetime.first,
      Lifetime.root, Lifetime.isNone]⟩)
  | plain hdeclaring huntracked hslot =>
    exact hs.declare hgrows rfl (fun _ => rfl)
      ⟨rfl, hslot, .inl rfl, fun hvalue => absurd rfl hvalue⟩
  | rebound hassigning hslot htracked hframe =>
    obtain ⟨hself, hregion⟩ := hassigning.rooted hs hslot
    refine hs.adopted hgrows hframe hself hregion ?_
    exact Outlives.holds_store_iff.2 (.inl ⟨rfl, rfl, relevant_nextVersionOf hself⟩)
  | record hresult hrun => exact hs.record hresult hrun
  | parameter hparameter hfields hfield hrun =>
    obtain ⟨-, rfl⟩ | ⟨-, rfl⟩ := runs_declareParameterMember hrun
    · refine hs.declare hgrows rfl (fun _ => rfl) ⟨rfl, ?_, .inr ⟨rfl, rfl⟩, fun _ => ?_⟩
      · simp
      · exact Outlives.holds_store_iff.2
          (.inl ⟨rfl, rfl, by simp [Outlives.Relevant, Lifetime.root, Lifetime.isNone]⟩)
    · refine hs.declare hgrows rfl (fun _ => rfl)
        ⟨rfl, ?_, .inl rfl, fun hvalue => absurd rfl hvalue⟩
      simp
  | entered hvisited hnode hexpr heffects hlookup hsome hchange hframe =>
    have hanchored := hs.bindings.lookup hlookup
    refine hs.adopted hgrows hframe hanchored.slot hanchored.region ?_
    exact Outlives.holds_store_iff.2 (.inl ⟨rfl, rfl, relevant_nextVersionOf hanchored.slot⟩)

theorem lasts_coherent : Lasts X (fun _ _ => True) fun _ s => Coherent s where
  step hstep _ hs := hstep.coherent hs
  enter _ henter hs := hs.enter henter
  leave _ _ hgrows hframe hs hs' := Coherent.absorb hs hs' hgrows hframe
  join := by
    intro p₀ p s₀ s path positive negative before frame _ hjoining _ _ hs
    have hanchored := hs.bindings.lookup hjoining.lookup
    refine hs.adopted hjoining.grows hjoining.rebind hanchored.slot hanchored.region ?_
    exact Outlives.holds_store_iff.2 (.inl ⟨rfl, rfl, relevant_nextVersionOf hanchored.slot⟩)
  flowBack ty? _ _ _ _ _ _ hs := hs.of_frame_eq (grows_store _ _ ty?) rfl fun _ => rfl

theorem Steps.coherent (h : Steps X p s p' s') (hs : Coherent s) : Coherent s' :=
  lasts_coherent.steps h hs

theorem Inside.coherent (h : Inside X p s p' s') (hs : Coherent s) : Coherent s' :=
  lasts_coherent.inside h hs

/-- At every point of an analysis, and in the frame of every scope that is still open, what a path
is bound to is its own slot, with no data or a version of the path that sits in the slot. -/
theorem anchored_of_point {env : Env} {function : Function} {context : Context} {s : State}
    (h : Point env function context s) {frame : Frame} (hframe : frame.scopes <:+ s.frame.scopes)
    {path : Path} {extent : Extent} (hlookup : frame.lookup? path = some extent) :
    Anchored s.context path extent := by
  obtain ⟨p, hinside⟩ := h.inside
  have hs := hinside.coherent (coherent_start _ _)
  have hall : frame.All (Anchored s.context) :=
    fun scope hscope => hs.bindings scope (hframe.subset hscope)
  exact hall.lookup hlookup

/-- `x = 0; p = new int; while (true) { { p = &x } }; p`, which is refused at its end. -/
def repointing : List Item := [
  .function "f" [] (.pointer .int) (.block [
    .declare "x" (.literal (.int 0)),
    .declare "p" (.newDefault .int),
    .loop (.literal (.bool true)) (.block [.block [.assign (.var "p") (.addressOf (.var "x"))]]),
    .var "p"])]

/-- In the middle of the loop body, the frame of the loop has a version of `p` that is made at its
start. -/
theorem anchored_repointing : ∃ assembly owner function s extent, ∃ frame : Frame,
    Program.ofItems repointing = .ok assembly ∧
      PassesBy (.ofFunction assembly.declarations {} owner function) function .initial
      (.after ⟨8⟩) s ∧
      frame.scopes <:+ s.frame.scopes ∧ s.frame.enclosing.length = 4 ∧
      frame.enclosing.length = 2 ∧
      frame.lookup? ⟨["f", "$block_0", "p"]⟩ = some extent ∧ extent.value.version = 1 ∧
      Anchored s.context ⟨["f", "$block_0", "p"]⟩ extent := by
  have h : PassesAt repointing {} (.after ⟨8⟩) fun _ _ _ s => s.frame.enclosing.length = 4 ∧
      ∃ innermost, (s.frame.scopes.drop 2).head? = some innermost ∧
        ∃ extent, Frame.lookup? ⟨innermost, (s.frame.scopes.drop 2).tail, true⟩
        ⟨["f", "$block_0", "p"]⟩ = some extent ∧ extent.value.version = 1 := by
    decide +kernel
  obtain ⟨assembly, hitems, owner, -, function, -, s, hpasses, hlength, innermost, hhead,
    extent, hlookup, hversion⟩ := h
  have hsuffix : Frame.scopes ⟨innermost, (s.frame.scopes.drop 2).tail, true⟩ <:+
      s.frame.scopes := by
    obtain ⟨rest, hrest⟩ := List.head?_eq_some_iff.1 hhead
    have hdropped := List.drop_suffix 2 s.frame.scopes
    rw [hrest] at hdropped ⊢
    exact hdropped
  exact ⟨assembly, owner, function, s, extent, _, hitems, hpasses, hsuffix, hlength,
    by
    simp [Frame.scopes, hlength], hlookup, hversion,
    anchored_of_point (.passes hpasses) hsuffix hlookup⟩

end Flow
end Regions
