import Mathlib.Data.Option.Basic
import Regions.Proofs.Couplings

/-!
# The rules in two runs

Every rule of the analysis leads corresponding states to corresponding states when the analysis of
the operands does (`Coupling.rule`). So do the steps that come before and after the body of a
function.

* `Coupling.rule`: the rules;
* `Coupling.declareParameters`, `Coupling.checkReturn`: what comes before the body and after it.
-/

namespace Regions

theorem Frame.mem_visible_iff {frame : Frame} {entry : Path × Extent} :
    entry ∈ frame.visible.toList ↔ frame.lookup? entry.1 = some entry.2 := by
  rw [← Frame.getElem?_visible]
  exact Std.ExtTreeMap.mem_toList_iff_getElem?_eq_some

namespace Flow

theorem mem_returnRoots_iff {graph : Outlives} {returned : Bundle} {root : Lifetime} :
    root ∈ returnRoots graph returned ↔
    ∃ l ∈ returned.tracked, root ∈ graph.rootsOf l := by
  have hfold : ∀ (ls : List Lifetime) (roots : LifetimeSet),
      root ∈ ls.foldl (fun roots l => roots ∪ graph.rootsOf l) roots ↔
        root ∈ roots ∨ ∃ l ∈ ls, root ∈ graph.rootsOf l := by
    intro ls
    induction ls with
    | nil => simp
    | cons l ls ih =>
      intro roots
      rw [List.foldl_cons, ih, Std.ExtTreeSet.mem_union_iff]
      simp [or_assoc]
  rw [returnRoots, hfold]
  simp

namespace Coupling

open Std

variable {env : Env} {id condition value target : NodeId} {C : Coupling env id}
  {recur recur' : Recur} {path : Path} {s t : State} {ty : Ty} {field : Field} {pointer : Extent}
  {access : Access} {fields : List Field} {kind member : String} {position : Position} {span : Span}
  {escaping : PathSet}

/-- The entries of a bundle in the two runs. -/
abbrev Entry (C : Coupling env id) (entry entry' : Path × Extent) : Prop :=
  entry' = (entry.1, entry.2.renumber C.ahead) ∧ C.Admits entry.2

theorem entry {extent : Extent} (h : C.Admits extent) :
    C.Agree (Pure.pure (path, extent)) (Pure.pure (path, extent.renumber C.ahead)) C.Entry :=
  C.pure ⟨rfl, h⟩

theorem mapEntries {α : Type} {f f' : α → FlowM (Path × Extent)} {xs : List α}
    (h : ∀ x ∈ xs, C.Agree (f x) (f' x) C.Entry) : C.Agree (xs.mapM f) (xs.mapM f') fun a b =>
      b = a.map (fun entry => (entry.1, entry.2.renumber C.ahead)) ∧
        ∀ entry ∈ a, C.Admits entry.2 := mapM h

theorem ours_of_placePath? {depth : Nat} {place : NodeId}
    (h : placePath? env.owner depth place = .ok (some path)) (m : Path) : C.Ours (path ++ m) := by
  induction depth generalizing place path m with
  | zero => cases h
  | succ depth ih =>
    obtain ⟨node, hnode, h⟩ := except_bind_eq_ok h
    split at h
    · rename_i found hexpr
      cases h
      exact C.names hnode (.inl hexpr) m
    · obtain ⟨inner, hinner, h⟩ := except_bind_eq_ok h
      cases inner with
      | none => cases h
      | some base =>
        cases h
        rw [Path.child_append]
        exact ih hinner _
    · cases h

theorem ours_of_mem_addressTaken {body : NodeId} {effects : LoopEffects}
    (h : loopEffects env.owner condition body = .ok effects)
    (hpath : path ∈ effects.addressTaken) : C.Ours path := by
  obtain ⟨_, -, h⟩ := except_bind_eq_ok h
  obtain ⟨_, -, h⟩ := except_bind_eq_ok h
  obtain ⟨_, -, h⟩ := except_bind_eq_ok h
  obtain ⟨addressTaken, haddressTaken, h⟩ := except_bind_eq_ok h
  cases h
  obtain ⟨places, -, hplaces⟩ := except_bind_eq_ok haddressTaken
  obtain ⟨place, -, hplace⟩ := exists_of_mem_filterMapM_ok hplaces hpath
  exact Path.append_whole path ▸ ours_of_placePath? hplace .whole

/-! ## Values and places -/

theorem frameGet (hsim : C.Sim s t) (path : Path) :
    C.Agree (liftM (s.frame.get path) : FlowM Extent) (liftM (t.frame.get path) : FlowM Extent)
      fun a b => b = a.renumber C.ahead ∧ C.Ours path ∧ C.Admits a := by
  refine liftMap (by rw [C.frame hsim, Frame.get_renumber]) fun extent hextent => ⟨rfl, ?_⟩
  unfold Frame.get at hextent
  split at hextent
  · cases hextent
    exact C.bindings hsim (by assumption)
  · cases hextent

theorem untrackedBundle : C.Agree (liftM (untrackedBundle env ty) : FlowM Bundle)
    (liftM (untrackedBundle env ty) : FlowM Bundle) fun a b =>
      b = Bundle.renumber C.ahead a ∧ C.Bundled a := by
  refine C.weaken lift fun bundle _ h => ?_
  obtain ⟨rfl, hbundle⟩ := h
  obtain ⟨members, -, hbundle⟩ := except_bind_eq_ok hbundle
  cases hbundle
  refine ⟨?_, bundled_ofList fun entry hentry => ?_⟩
  · rw [Bundle.renumber_ofList, List.map_map]
    rfl
  · obtain ⟨member, -, rfl⟩ := List.mem_map.1 hentry
    exact admits_untracked

theorem recordEntries {entries : List (Path × Extent)}
    (h : ∀ entry ∈ entries, C.Admits entry.2) (hescaping : ∀ path ∈ escaping, C.Ours path) :
    C.Match (Flow.record id (.ofList entries compare) escaping) (Flow.record id
        (.ofList (entries.map fun entry => (entry.1, entry.2.renumber C.ahead)) compare)
        escaping) := by
  rw [← Bundle.renumber_ofList]
  exact C.record (bundled_ofList h) hescaping

theorem recordWhole {l : Lifetime} (hl : C.Known l)
    (hescaping : ∀ path ∈ escaping, C.Ours path) :
    C.Match (Flow.record id (.ofList [(.whole, .ofValue l)] compare) escaping)
      (Flow.record id (.ofList [(.whole, .ofValue (l.renumber C.ahead))] compare) escaping) := by
  have hentries : ∀ entry ∈ [(Path.whole, Extent.ofValue l)], C.Admits entry.2 :=
    by simpa using admits_ofValue hl
  exact recordEntries hentries hescaping

theorem operator {operands : List NodeId}
    (hrec : ∀ operand ∈ operands, C.Match (recur .value operand) (recur' .value operand)) :
    C.Match (operator env recur id operands) (operator env recur' id operands) := by
  refine C.bind (forM hrec) fun _ _ _ => bindLift fun ty _ => ?_
  refine bindMap untrackedBundle fun bundle hbundle => ?_
  exact C.record hbundle (by simp)

theorem readVariable (hpath : C.Ours path) :
    C.Match (readVariable env id path) (readVariable env id path) := by
  refine bindLift fun ty _ => ?_
  refine bindLift fun fields _ => ?_
  refine C.bind C.get fun s t hsim => ?_
  dsimp only
  refine bindMap (mapEntries fun field _ => ?_) fun entries hentries => ?_
  · split
    · refine C.bind (frameGet hsim _) fun extent _ h => ?_
      obtain ⟨rfl, -, hextent⟩ := h
      exact entry hextent
    · exact entry admits_untracked
  · refine bindLift fun tracked _ => ?_
    split
    · exact recordEntries hentries (by simpa using hpath)
    · exact recordEntries hentries (by simp)

theorem nameVariable (hpath : C.Ours path) :
    C.Match (nameVariable env id path) (nameVariable env id path) := by
  refine bindLift fun ty _ => ?_
  refine bindLift fun members _ => ?_
  refine C.bind C.get fun s t hsim => ?_
  dsimp only
  refine bindMap (mapEntries fun member _ => ?_) fun entries hentries => ?_
  · refine C.bind (frameGet hsim _) fun extent _ h => ?_
    obtain ⟨rfl, -, hextent⟩ := h
    exact entry hextent
  · exact recordEntries hentries (by simpa using hpath)

theorem declareMember {initializer : Bundle} (hpath : C.Ours (path ++ field.path))
    (hinitializer : C.Bundled initializer) : C.Match (declareMember path initializer field)
      (declareMember path (Bundle.renumber C.ahead initializer) field) := by
  refine C.bind C.newRoot fun slot _ h => ?_
  obtain ⟨rfl, rfl⟩ := h
  have hslot : C.Known (.root (path ++ field.path) .localSlot) := known_variable hpath (by simp)
  dsimp only
  split
  · rw [Bundle.getElem?_renumber]
    cases hinitial : initializer[field.path]? with
    | none => exact C.throw
    | some initial =>
      have hvalue : C.Known { path := path ++ field.path, role := .alias, origin := .localValue } :=
        known_version hpath
      refine C.bind (unify hvalue (hinitializer _ _ hinitial).1) fun _ _ _ => ?_
      exact C.bind (C.store hvalue (.inl hslot)) fun _ _ _ => C.declare hpath ⟨hvalue, hslot⟩
  · exact C.declare hpath ⟨C.known_none, hslot⟩

theorem declareVariable (hpath : ∀ m, C.Ours (path ++ m))
    (hvalue : C.Match (recur .value value) (recur' .value value)) :
    C.Match (declareVariable env recur id path value)
    (declareVariable env recur' id path value) := by
  refine C.bind hvalue fun _ _ _ => bindMap bundleOf fun initializer hinitializer => ?_
  refine bindLift fun ty _ => ?_
  refine bindLift fun fields _ => ?_
  refine C.bind (forM fun field _ => declareMember (hpath _) hinitializer)
    fun _ _ _ => bindMap escapingOf fun escaping hescaping => ?_
  exact C.bind (C.capture (Path.append_whole path ▸ hpath .whole) hescaping)
    fun _ _ _ => recordVoid

theorem addressOf (htarget : C.Match (recur .place target) (recur' .place target)) :
    C.Match (addressOf env recur id target) (addressOf env recur' id target) := by
  refine C.bind htarget fun _ _ _ => C.bind wholeOf fun extent _ h => ?_
  obtain ⟨rfl, -, hslot⟩ := h
  have hend : C.Match
    (Flow.escapingOf target >>= Flow.record id (.ofList [(.whole, .ofValue extent.slot)] _))
      (Flow.escapingOf target >>= Flow.record id
        (.ofList [(.whole, .ofValue (extent.slot.renumber C.ahead))] _)) := by
    refine bindMap escapingOf fun escaping hescaping => ?_
    exact recordWhole hslot hescaping
  simp only [Extent.slot_renumber, Lifetime.isNone_renumber, Lifetime.isSlot_renumber,
    Lifetime.path_renumber]
  split
  · exact throwThen
  · split
    · rename_i hsome hlocal
      exact C.bind (C.expose (C.ours hslot (by simpa using hsome))) fun _ _ _ => hend
    · exact hend

/-! ## Indirection -/

theorem pointee?_eq (hsim : C.Sim s t) (hpointer : C.Admits pointer) :
    pointee? env t (pointer.renumber C.ahead) = pointee? env s pointer := by
  have hframe : t.frame.lookup? pointer.slot.path =
      (s.frame.lookup? pointer.slot.path).map (Extent.renumber C.ahead) := by
    rw [C.frame hsim, Frame.lookup?_renumber]
  unfold pointee?
  dsimp only
  rw [Extent.slot_renumber, Lifetime.isSlot_renumber, Lifetime.path_renumber, hframe]
  cases hslot : pointer.slot.isSlot with
  | false => simp [guard]
  | true =>
    have hours : C.Ours pointer.slot.path := C.ours hpointer.2 (by
      simp only [Lifetime.isSlot, decide_eq_true_eq] at hslot
      simp [Lifetime.isNone, hslot])
    rw [C.exposed hsim hours]
    cases hcurrent : s.frame.lookup? pointer.slot.path with
    | none => simp only [Option.map_none, Option.bind_eq_bind, Option.bind_none]
    | some current =>
      have hslots := C.slots hsim (C.bindings hsim hcurrent).2.1
      simp only [Option.map_some, Option.bind_eq_bind, Option.bind_some, Extent.value_renumber,
        Lifetime.isNone_renumber, hslots]

theorem aliasBundle?_renumber {frame : Frame} {home : Path} {n : Nat} :
    aliasBundle? (frame.renumber n) home access fields =
      (aliasBundle? frame home access fields).map (Bundle.renumber n) := by
  have hentries : fields.mapM (fun field : Field => do
        let extent ← (frame.renumber n).lookup? (home ++ field.path)
        return (field.path, if access = Access.read ∧ !field.tracked then Extent.untracked
          else extent)) =
      (fields.mapM (fun field : Field => do
        let extent ← frame.lookup? (home ++ field.path)
        return (field.path, if access = Access.read ∧ !field.tracked then Extent.untracked
          else extent))).map
        (List.map fun entry : Path × Extent => (entry.1, entry.2.renumber n)) := by
    induction fields with
    | nil => rfl
    | cons field fields ih =>
      rw [List.mapM_cons, List.mapM_cons, ih, Frame.lookup?_renumber]
      cases frame.lookup? (home ++ field.path) with
      | none => rfl
      | some extent =>
        generalize fields.mapM (m := Option) _ = rest
        cases rest with
        | none => rfl
        | some rest =>
          simp only [Option.map_some, Option.bind_eq_bind, Option.bind_some, Option.pure_def,
            List.map_cons]
          split <;> rfl
  unfold aliasBundle?
  rw [hentries]
  generalize fields.mapM (m := Option) _ = entries
  cases entries with
  | none => rfl
  | some entries =>
    simp only [Option.map_some, Option.bind_eq_bind, Option.bind_some, Option.pure_def,
      Bundle.renumber_ofList]

theorem bundled_aliasBundle? (hsim : C.Sim s t) {home : Path} {bundle : Bundle}
    (h : aliasBundle? s.frame home access fields = some bundle) : C.Bundled bundle := by
  obtain ⟨entries, hentries, hbundle⟩ := Option.bind_eq_some_iff.1 h
  cases hbundle
  refine bundled_ofList fun entry hentry => ?_
  obtain ⟨field, -, hfield⟩ := forall₂_mem_right (forall₂_of_mapM_some hentries) hentry
  obtain ⟨extent, hextent, hfield⟩ := Option.bind_eq_some_iff.1 hfield
  cases hfield
  dsimp only
  split
  · exact admits_untracked
  · exact (C.bindings hsim hextent).2

theorem resolve? (hpointer : C.Admits pointer) :
    C.Agree (resolve? env pointer ty access) (resolve? env (pointer.renumber C.ahead) ty access)
      fun a b => b = a.map (Bundle.renumber C.ahead) ∧ ∀ bundle ∈ a, C.Bundled bundle := by
  refine C.bind C.get fun s t hsim => ?_
  rw [pointee?_eq hsim hpointer]
  cases pointee? env s pointer with
  | none => exact C.pure ⟨rfl, by simp⟩
  | some home =>
    refine bindLift fun fields _ => ?_
    rw [C.frame hsim, aliasBundle?_renumber]
    exact C.pure ⟨rfl, fun bundle hbundle => bundled_aliasBundle? hsim hbundle⟩

theorem readThrough (hpointer : C.Admits pointer) : C.Match (readThrough env kind id target pointer)
      (readThrough env kind id target (pointer.renumber C.ahead)) := by
  refine bindLift fun ty _ => ?_
  refine bindMap escapingThrough fun escaping hescaping => ?_
  refine bindMap (resolve? hpointer) fun bundle? hbundle? => ?_
  cases bundle? with
  | some bundle => exact C.record (hbundle? bundle rfl) hescaping
  | none =>
    refine bindLift fun fields _ => ?_
    refine bindMap (mapEntries fun field _ => ?_) fun entries hentries => ?_
    · split
      · refine C.bind C.newRoot fun value _ h => ?_
        obtain ⟨rfl, rfl⟩ := h
        have hvalue : C.Known (.root (env.tempPath kind id ++ field.path) .temporary) :=
          known_variable (C.ours_tempPath kind field.path) (by simp)
        exact C.bind (C.store hvalue (.inl hpointer.1)) fun _ _ _ => entry (admits_ofValue hvalue)
      · exact entry admits_untracked
    · exact recordEntries hentries hescaping

theorem writeThrough (hpointer : C.Admits pointer) :
    C.Match (writeThrough env kind id target pointer)
      (writeThrough env kind id target (pointer.renumber C.ahead)) := by
  refine bindLift fun ty _ => ?_
  refine bindMap escapingOf fun escaping hescaping => ?_
  refine bindMap (resolve? hpointer) fun bundle? hbundle? => ?_
  cases bundle? with
  | some bundle => exact C.record (hbundle? bundle rfl) hescaping
  | none =>
    refine C.bind C.get fun s t hsim => bindLift fun fields _ => ?_
    refine bindMap (mapEntries fun field _ => ?_) fun entries hentries => ?_
    · split
      · have hwritten : C.Known
            { path := env.tempPath kind id ++ field.path, role := .alias, origin := .temporary } :=
          known_temp kind field.path
        refine C.bind (C.storeInSupport hsim hwritten hpointer.1) fun _ _ _ => ?_
        exact C.bind (C.store hwritten (.inl hpointer.1)) fun _ _ _ =>
          entry ⟨hwritten, hpointer.1⟩
      · exact entry ⟨C.known_none, hpointer.1⟩
    · exact recordEntries hentries hescaping

theorem accessThrough (hpointer : C.Admits pointer) :
    C.Match (accessThrough env kind position id target pointer)
      (accessThrough env kind position id target (pointer.renumber C.ahead)) := by
  cases position with
  | value => exact readThrough hpointer
  | place => exact writeThrough hpointer

theorem dereference (htarget : C.Match (recur .value target) (recur' .value target)) :
    C.Match (dereference env recur position id target)
    (dereference env recur' position id target) := by
  refine C.bind htarget fun _ _ _ => bindMap wholeOf fun pointer hpointer => ?_
  exact accessThrough hpointer

theorem index {subscript : NodeId} (htarget : C.Match (recur .value target) (recur' .value target))
    (hsubscript : C.Match (recur .value subscript) (recur' .value subscript)) :
    C.Match (index env recur position id target subscript)
    (index env recur' position id target subscript) := by
  refine C.bind htarget fun _ _ _ => C.bind hsubscript fun _ _ _ =>
    bindMap wholeOf fun pointer hpointer => ?_
  exact accessThrough (admits_ofValue hpointer.1)

/-! ## Heap memory -/

theorem violation?_eq (hsim : C.Sim s t) {write : HeapWrite} (hcontainer : C.Known write.container)
    (hstored : C.Known write.stored) :
    (write.renumber C.ahead).violation? env.options t.context.graph =
      write.violation? env.options s.context.graph := by
  have hroots := C.rootsOf hsim hstored
  have hbacked := C.backed hsim hcontainer
  unfold HeapWrite.violation? HeapWrite.renumber
  rw [hroots, hbacked]

theorem verify {write : HeapWrite} (hcontainer : C.Known write.container)
    (hstored : C.Known write.stored) :
    C.Match (verify env write) (verify env (write.renumber C.ahead)) := by
  refine C.bind C.get fun s t hsim => ?_
  rw [violation?_eq hsim hcontainer hstored]
  split
  · exact C.throw
  · exact done

theorem check {container stored : Lifetime} (hcontainer : C.Known container)
    (hstored : C.Known stored) : C.Match (check env ⟨container, stored, span⟩)
      (check env ⟨container.renumber C.ahead, stored.renumber C.ahead, span⟩) := by
  exact C.bind (C.log hcontainer hstored) fun _ _ _ => verify hcontainer hstored

theorem initializeMember {region : Lifetime} {initial : Bundle} (hregion : C.Known region)
    (hinitial : C.Bundled initial) : C.Match (initializeMember env region initial span field)
      (initializeMember env (region.renumber C.ahead) (Bundle.renumber C.ahead initial)
        span field) := by
  unfold Flow.initializeMember
  rw [Bundle.getElem?_renumber]
  cases hget : initial[field.path]? with
  | none => exact done
  | some extent =>
    have hvalue := (hinitial _ _ hget).1
    simp only [Option.map_some, Extent.value_renumber, Lifetime.isNone_renumber]
    split
    · exact done
    · exact C.bind (check hregion hvalue) fun _ _ _ => C.store hvalue (.inl hregion)

theorem allocate {initializer : Option NodeId}
    (hrec : ∀ value ∈ initializer, C.Match (recur .value value) (recur' .value value)) :
    C.Match (allocate env recur id initializer) (allocate env recur' id initializer) := by
  refine C.bind C.newRoot fun region _ h => ?_
  obtain ⟨rfl, rfl⟩ := h
  have hregion : C.Known (.root (env.tempPath "new" id) .heap) := C.known_region "new"
  cases initializer with
  | none => exact recordWhole hregion (by simp)
  | some value =>
    refine C.bind (hrec value rfl) fun _ _ _ => bindLift fun node _ => ?_
    refine bindMap bundleOf fun initial hinitial => ?_
    refine bindLift fun fields _ => ?_
    exact C.bind (forM fun field _ => initializeMember hregion hinitial) fun _ _ _ =>
      recordWhole hregion (by simp)

/-! ## Members and struct literals -/

theorem memberBundle :
    C.Agree (memberBundle env id target member) (memberBundle env id target member) fun a b =>
      b = Bundle.renumber C.ahead a ∧ C.Bundled a := by
  refine bindMap bundleOf fun bundle hbundle => ?_
  have hscoped : C.Bundled (bundle.scopedTo (.single member)) := by
    refine bundled_ofList fun entry hentry => ?_
    obtain ⟨⟨path, extent⟩, hmem, hstrip⟩ := List.mem_filterMap.1 hentry
    obtain ⟨rest, -, rfl⟩ := Option.map_eq_some_iff.1 hstrip
    exact hbundle path extent (ExtTreeMap.mem_toList_iff_getElem?_eq_some.1 hmem)
  rw [Bundle.scopedTo_renumber]
  generalize bundle.scopedTo (.single member) = part at hscoped ⊢
  dsimp only
  rw [Bundle.whole?_renumber, Option.isNone_map]
  split
  · exact throwThen
  · refine bindLift fun ty _ => ?_
    refine bindLift fun members _ => ?_
    rw [Bundle.size_renumber]
    split
    · exact C.pure ⟨rfl, hscoped⟩
    · exact throwThen

theorem readMember (htarget : C.Match (recur .value target) (recur' .value target)) :
    C.Match (readMember env recur id target member) (readMember env recur' id target member) := by
  refine C.bind htarget fun _ _ _ => bindLift fun ty _ => ?_
  refine bindMap escapingThrough fun escaping hescaping => ?_
  refine bindMap memberBundle fun bundle hbundle => ?_
  exact C.record hbundle hescaping

theorem nameMember (htarget : C.Match (recur .place target) (recur' .place target)) :
    C.Match (nameMember env recur id target member) (nameMember env recur' id target member) := by
  refine C.bind htarget fun _ _ _ => bindMap escapingOf fun escaping hescaping => ?_
  refine bindMap memberBundle fun bundle hbundle => ?_
  exact C.record hbundle hescaping

theorem insertField {whole : Lifetime} {name : String} (hwhole : C.Known whole) :
    C.Agree (insertField env whole name value)
      (insertField env (whole.renumber C.ahead) name value) fun a b =>
        b = a.map (fun entry => (entry.1, entry.2.renumber C.ahead)) ∧
            ∀ entry ∈ a, C.Admits entry.2 := by
  refine bindLift fun ty _ => ?_
  refine bindMap bundleOf fun bundle hbundle => ?_
  rw [Bundle.tracked_renumber, Bundle.toList_renumber]
  refine C.bind (forMMap fun data hdata => C.store (hbundle.tracked hdata) (.inl hwhole))
    fun _ _ _ => ?_
  refine C.pure ⟨by rw [List.map_map, List.map_map]; rfl, fun entry hentry => ?_⟩
  obtain ⟨inner, hinner, rfl⟩ := List.mem_map.1 hentry
  exact admits_ofValue (hbundle _ _ (ExtTreeMap.mem_toList_iff_getElem?_eq_some.1 hinner)).1

theorem bundled_defaults {whole : Lifetime} {given : Bundle} (hwhole : C.Known whole)
    (members : List Field) (hgiven : C.Bundled given) : members.foldl (fun bundle field =>
        bundle.insertIfNew field.path (defaultExtent (whole.renumber C.ahead) field))
        (Bundle.renumber C.ahead given) =
      Bundle.renumber C.ahead (members.foldl (fun bundle field =>
        bundle.insertIfNew field.path (defaultExtent whole field)) given) ∧
    C.Bundled (members.foldl (fun bundle field =>
      bundle.insertIfNew field.path (defaultExtent whole field)) given) := by
  induction members generalizing given with
  | nil => exact ⟨rfl, hgiven⟩
  | cons field members ih =>
    have hdefault : defaultExtent (whole.renumber C.ahead) field =
        (defaultExtent whole field).renumber C.ahead := by
      unfold defaultExtent
      split <;> rfl
    rw [List.foldl_cons, List.foldl_cons, hdefault, ← Bundle.renumber_insertIfNew]
    refine ih fun path extent hget => ?_
    rw [ExtTreeMap.getElem?_insertIfNew] at hget
    split at hget
    · cases hget
      unfold defaultExtent
      split
      · exact admits_ofValue hwhole
      · exact admits_untracked
    · exact hgiven path extent hget

theorem structLiteral {fields : List (String × NodeId)}
    (hrec : ∀ field ∈ fields, C.Match (recur .value field.2) (recur' .value field.2)) :
    C.Match (structLiteral env recur id fields) (structLiteral env recur' id fields) := by
  refine C.bind (forM hrec) fun _ _ _ => bindLift fun ty _ => ?_
  refine bindLift fun tracked _ => ?_
  split
  · have hwhole : C.Known
        { path := env.tempPath "struct" id, role := .temp, origin := .temporary } := by
      have h : C.Known
          { path := env.tempPath "struct" id ++ .whole, role := .temp, origin := .temporary } :=
        known_temp "struct" .whole
      rwa [Path.append_whole] at h
    dsimp only
    refine bindMap (mapM fun field _ => insertField hwhole) fun entries hentries => ?_
    refine bindMap (mapM fun field _ => escapingOf) fun escaping hescaping => ?_
    refine bindLift fun members _ => ?_
    have hbundle : C.Bundled (.ofList entries.flatten compare) :=
        bundled_ofList fun entry hentry => by
      obtain ⟨part, hpart, hentry⟩ := List.mem_flatten.1 hentry
      exact hentries part hpart entry hentry
    obtain ⟨heq, hall⟩ := bundled_defaults hwhole members hbundle
    have hwholeEq : Lifetime.renumber C.ahead
        { path := env.tempPath "struct" id, role := .temp, origin := .temporary } =
        { path := env.tempPath "struct" id, role := .temp, origin := .temporary } := rfl
    rw [hwholeEq, Bundle.renumber_ofList, List.map_flatten] at heq
    rw [heq, List.map_id']
    refine C.record hall fun path hpath => ?_
    obtain hempty | ⟨set, hset, hpath⟩ := mem_foldl_union_iff.1 hpath
    · simp at hempty
    · exact hescaping set hset path hpath
  · refine bindMap untrackedBundle fun bundle hbundle => ?_
    exact C.record hbundle (by simp)

/-! ## Blocks, branches and loops -/

theorem block {statements : List NodeId}
    (hrec : ∀ statement ∈ statements, C.Match (recur .value statement)
      (recur' .value statement)) :
    C.Match (block env recur id statements) (block env recur' id statements) := by
  refine bindMap (C.within (.inl rfl) (forM hrec)) fun changes hchanges => ?_
  rw [Bundle.toList_renumber]
  refine C.bind (forMMap fun entry hentry => ?_) fun _ _ _ => ?_
  · have hentry := hchanges _ _ (ExtTreeMap.mem_toList_iff_getElem?_eq_some.1 hentry)
    exact C.rebind hentry.1 hentry.2
  · split
    · refine bindLift fun ty _ => ?_
      split
      · exact recordVoid
      · refine bindMap bundleOf fun bundle hbundle => ?_
        refine bindMap escapingOf fun escaping hescaping => ?_
        exact C.record hbundle hescaping
    · exact recordVoid

section

variable {positive negative : PathMap Extent}
  (hpositive : ∀ (path : Path) (extent : Extent), positive[path]? = some extent →
    C.Ours path ∧ C.Admits extent)
  (hnegative : ∀ (path : Path) (extent : Extent), negative[path]? = some extent →
    C.Ours path ∧ C.Admits extent)

include hpositive hnegative

theorem mergeVariable : C.Match (mergeVariable positive negative path)
    (mergeVariable (Bundle.renumber C.ahead positive) (Bundle.renumber C.ahead negative) path) := by
  refine C.bind C.get fun s t hsim => C.bind (frameGet hsim path) fun before _ h => ?_
  obtain ⟨rfl, hpath, hbefore⟩ := h
  refine C.bind (C.newVersion hpath) fun merged _ h => ?_
  obtain ⟨rfl, hmerged, hsome⟩ := h
  -- What a branch made of the variable, or what it was before.
  have hside : ∀ changes : PathMap Extent, (∀ (path : Path) (extent : Extent),
      changes[path]? = some extent → C.Ours path ∧ C.Admits extent) → C.Match
      (Flow.store (changes[path]?.getD before).value merged)
      (Flow.store ((Bundle.renumber C.ahead changes)[path]?.getD (before.renumber C.ahead)).value
        (merged.renumber C.ahead)) := by
    intro changes hchanges
    rw [Bundle.getElem?_renumber]
    cases hget : changes[path]? with
    | none => exact C.store hbefore.1 (.inl hmerged)
    | some extent => exact C.store (hchanges path extent hget).2.1 (.inl hmerged)
  refine C.bind (hside positive hpositive) fun _ _ _ =>
    C.bind (hside negative hnegative) fun _ _ _ => ?_
  exact C.bind (C.store hmerged (.inl hbefore.2)) fun _ _ _ => C.adopt hmerged hsome hbefore.2

theorem mergeBranches : C.Match (mergeBranches positive negative)
    (mergeBranches (Bundle.renumber C.ahead positive) (Bundle.renumber C.ahead negative)) := by
  unfold Flow.mergeBranches
  rw [← Bundle.renumber_union, Bundle.keys_renumber]
  exact forM fun path _ => mergeVariable hpositive hnegative

end

theorem joinMember {positive negative : Bundle} (hpositive : C.Bundled positive)
    (hnegative : C.Bundled negative) :
    C.Agree (joinMember (env.tempPath "if" id) positive negative field)
      (joinMember (env.tempPath "if" id) (Bundle.renumber C.ahead positive)
        (Bundle.renumber C.ahead negative) field) C.Entry := by
  have hjoined : C.Known
      { path := env.tempPath "if" id ++ field.path, role := .temp, origin := .temporary } :=
    known_temp "if" field.path
  have hside : ∀ bundle, C.Bundled bundle →
      C.Match
      (storeFrom bundle ⟨env.tempPath "if" id ++ field.path, 0, .temp, .temporary⟩ field)
        (storeFrom (Bundle.renumber C.ahead bundle)
          ⟨env.tempPath "if" id ++ field.path, 0, .temp, .temporary⟩ field) := by
    intro bundle hbundle
    unfold storeFrom
    rw [Bundle.getElem?_renumber]
    cases hget : bundle[field.path]? with
    | none => exact done
    | some extent => exact C.store (hbundle _ _ hget).1 (.inl hjoined)
  rw [joinMember_eq, joinMember_eq]
  split
  · refine C.bind (hside positive hpositive) fun _ _ _ =>
      C.bind (hside negative hnegative) fun _ _ _ => ?_
    exact entry (admits_ofValue hjoined)
  · exact entry admits_untracked

theorem joinBranches {positive negative : NodeId} :
    C.Match (joinBranches env id positive negative ty)
    (joinBranches env id positive negative ty) := by
  refine bindLift fun fields _ => ?_
  refine bindMap bundleOf fun positiveBundle hpositive => ?_
  refine bindMap bundleOf fun negativeBundle hnegative => ?_
  refine bindMap (mapM fun field _ => joinMember hpositive hnegative) fun entries hentries => ?_
  refine bindLift fun tracked _ => ?_
  split
  · refine bindMap escapingOf fun positiveEscaping hpositive => ?_
    refine bindMap escapingOf fun negativeEscaping hnegative => ?_
    rw [pure_bind, pure_bind]
    refine recordEntries hentries fun path hpath => ?_
    rcases ExtTreeSet.mem_union_iff.1 hpath with hpath | hpath
    · exact hpositive path hpath
    · exact hnegative path hpath
  · rw [pure_bind, pure_bind]
    exact recordEntries hentries (by simp)

theorem cond {positive : NodeId} {negative? : Option NodeId}
    (hcondition : C.Match (recur .value condition) (recur' .value condition))
    (hpositive : C.Match (recur .value positive) (recur' .value positive))
    (hnegative : ∀ negative ∈ negative?, C.Match (recur .value negative)
      (recur' .value negative)) :
    C.Match (cond env recur id condition positive negative?)
    (cond env recur' id condition positive negative?) := by
  refine C.bind hcondition fun _ _ _ => ?_
  refine bindMap (C.within (.inl rfl) hpositive) fun positiveChanges hpositiveChanges => ?_
  cases negative? with
  | none =>
    have hmerge : C.Match (Flow.mergeBranches positiveChanges ∅)
        (Flow.mergeBranches (Bundle.renumber C.ahead positiveChanges)
            (Bundle.renumber C.ahead ∅)) :=
      mergeBranches hpositiveChanges (by simp)
    rw [Bundle.renumber_empty] at hmerge
    dsimp only
    rw [pure_bind, pure_bind]
    exact C.bind hmerge fun _ _ _ => C.bind lift fun _ _ _ => recordVoid
  | some negative =>
    refine bindMap (C.within (.inl rfl) (hnegative negative rfl))
      fun negativeChanges hnegativeChanges => ?_
    refine C.bind (mergeBranches hpositiveChanges hnegativeChanges) fun _ _ _ =>
      bindLift fun ty _ => ?_
    dsimp only
    split
    · exact recordVoid
    · exact joinBranches

/-- A loop of the second run has the same candidates for an entry version. -/
theorem candidates_eq (hsim : C.Sim s t) (effects : LoopEffects) :
    (t.frame.visible.toList.filter fun (path, extent) =>
        !extent.value.isNone && effects.mayChange t.context path) =
      (s.frame.visible.toList.filter fun (path, extent) =>
        !extent.value.isNone && effects.mayChange s.context path).map fun entry =>
          (entry.1, entry.2.renumber C.ahead) := by
  rw [C.frame hsim, Frame.visible_renumber, Bundle.toList_renumber, List.filter_map]
  congr 1
  refine List.filter_congr fun entry hentry => ?_
  have hours := (C.bindings hsim (Frame.mem_visible_iff.1 hentry)).1
  simp [LoopEffects.mayChange, C.exposed hsim hours]

theorem enterLoop {entry : Path × Extent} (hentry : C.Ours entry.1 ∧ C.Admits entry.2) :
    C.Agree (enterLoop entry) (enterLoop (entry.1, entry.2.renumber C.ahead)) fun a b =>
      b = (a.1, a.2.renumber C.ahead) ∧ C.Known a.2 := by
  obtain ⟨path, extent⟩ := entry
  obtain ⟨hpath, hvalue, hslot⟩ := hentry
  refine C.bind (C.newVersion hpath) fun version _ h => ?_
  obtain ⟨rfl, hversion, hsome⟩ := h
  refine C.bind (C.store hvalue (.inl hversion)) fun _ _ _ => ?_
  refine C.bind (C.store hversion (.inl hslot)) fun _ _ _ => ?_
  exact C.bind (C.adopt hversion hsome hslot) fun _ _ _ =>
    C.pure ⟨rfl, hversion⟩

theorem flowBack {entries : List (Path × Lifetime)} {rebound : Path × Lifetime}
    (hrebound : C.Known rebound.2) (hentries : ∀ entry ∈ entries, C.Known entry.2) :
    C.Match (flowBack (.ofList entries compare) rebound)
      (flowBack (.ofList (entries.map fun entry => (entry.1, entry.2.renumber C.ahead)) compare)
        (rebound.1, rebound.2.renumber C.ahead)) := by
  unfold Flow.flowBack
  rw [← PathMap.map_ofList, ExtTreeMap.getElem?_map]
  cases hentry : (ExtTreeMap.ofList entries compare)[rebound.1]? with
  | none => exact done
  | some entry => exact C.store hrebound (.inl (hentries _ (mem_of_getElem?_ofList hentry)))

theorem loop {body : NodeId}
    (hcondition : C.Match (recur .value condition) (recur' .value condition))
    (hbody : C.Match (recur .value body) (recur' .value body)) :
    C.Match (loop env recur id condition body) (loop env recur' id condition body) := by
  refine bindLift fun effects heffects => ?_
  refine C.bind (forM fun path hpath => C.expose (ours_of_mem_addressTaken heffects hpath))
    fun _ _ _ => ?_
  refine C.bind C.get fun s t hsim => ?_
  dsimp only
  rw [candidates_eq hsim]
  refine bindMap (mapMMap fun entry hentry => enterLoop ?_) fun entries hentries => ?_
  · exact C.bindings hsim (Frame.mem_visible_iff.1 (List.mem_filter.1 hentry).1)
  · refine C.bind C.get fun s₁ t₁ hsim₁ => ?_
    refine C.bind (C.within (.inr rfl)
      (C.bind hcondition fun _ _ _ => hbody)) fun _ _ _ => C.bind C.get fun s₂ t₂ hsim₂ => ?_
    rw [C.rebound hsim₁ hsim₂, C.heapWrites hsim₁ hsim₂]
    refine C.bind (forMMap fun rebound hrebound => ?_) fun _ _ _ => ?_
    · exact flowBack (C.known_rebound hsim₂ rebound (List.mem_of_mem_drop hrebound)) hentries
    · refine C.bind (forMMap fun write hwrite => ?_) fun _ _ _ => recordVoid
      have hknown := C.known_heapWrites hsim₂ write (List.mem_of_mem_drop hwrite)
      exact verify hknown.1 hknown.2

theorem leaveIteration : C.Match (leaveIteration env id) (leaveIteration env id) := by
  refine C.bind C.get fun s t hsim => ?_
  have hloop : t.frame.inLoop = s.frame.inLoop := by rw [C.frame hsim, Frame.inLoop_renumber]
  dsimp only
  rw [hloop]
  split
  · exact recordVoid
  · refine bindLift fun node _ => ?_
    exact throwThen

/-! ## Calls and assignments -/

/-- The data of an argument in the second run. -/
def pass (C : Coupling env id) (argument : Argument) : Argument :=
  { argument with values := argument.values.map (Lifetime.renumber C.ahead) }

theorem argument {node : NodeId} : C.Agree (argument env node) (argument env node) fun a b =>
    b = C.pass a ∧ ∀ value ∈ a.values, C.Known value := by
  refine bindMap bundleOf fun bundle hbundle => ?_
  refine bindLift fun ty _ => ?_
  refine bindLift fun tracked _ => ?_
  rw [Bundle.tracked_renumber]
  exact C.pure ⟨rfl, fun value hvalue => hbundle.tracked hvalue⟩

theorem mixArguments {arguments : List Argument}
    (harguments : ∀ argument ∈ arguments, ∀ value ∈ argument.values, C.Known value) :
    C.Match (mixArguments arguments) (mixArguments (arguments.map C.pass)) := by
  have hknown : ∀ entry ∈ arguments.zipIdx, ∀ value ∈ entry.1.values, C.Known value :=
    fun entry hentry => harguments entry.1 (List.fst_mem_of_mem_zipIdx hentry)
  unfold Flow.mixArguments
  rw [List.zipIdx_map]
  refine forMMap fun stored hstored => forMMap fun container hcontainer => ?_
  dsimp only [Prod.map, id_eq, pass]
  split
  · refine forMMap fun holder hholder => forMMap fun value hvalue => ?_
    exact C.store (hknown stored hstored value hvalue)
      (.inl (hknown container hcontainer holder hholder))
  · exact done

theorem recordCall {result : Bundle} (hresult : C.Bundled result)
    (hsame : Bundle.renumber C.ahead result = result) : C.Match (do
      if fields.any Field.tracked then
        Functor.discard (Flow.newRoot path .heap)
      Flow.record id result ∅) (do
      if fields.any Field.tracked then
        Functor.discard (Flow.newRoot path .heap)
      Flow.record id result ∅) := by
  have hrecord : C.Match (Flow.record id result ∅) (Flow.record id result ∅) := by
    have h : C.Match (Flow.record id result ∅)
        (Flow.record id (Bundle.renumber C.ahead result) ∅) :=
      C.record hresult (by simp)
    rwa [hsame] at h
  split
  · exact C.bind (discard C.newRoot) fun _ _ _ => hrecord
  · exact hrecord

theorem call {function : Path} {arguments : List NodeId}
    (hrec : ∀ argument ∈ arguments, C.Match (recur .value argument) (recur' .value argument)) :
    C.Match (call env recur id function arguments) (call env recur' id function arguments) := by
  refine C.bind (forM hrec) fun _ _ _ => ?_
  dsimp only
  split
  · refine bindMap (mapM fun _ _ => argument) fun arguments harguments => ?_
    refine C.bind (mixArguments harguments) fun _ _ _ => bindLift fun ty _ => ?_
    refine bindLift fun fields _ => recordCall (bundled_ofList fun entry hentry => ?_) ?_
    · obtain ⟨field, -, rfl⟩ := List.mem_map.1 hentry
      dsimp only
      split
      · exact admits_ofValue (C.known_region "call")
      · exact admits_untracked
    · rw [Bundle.renumber_ofList, List.map_map]
      refine congrArg (ExtTreeMap.ofList · compare) (List.map_congr_left fun field _ => ?_)
      dsimp only [Function.comp]
      split <;> rfl
  · exact throwThen

theorem rebindLocal {slot assigned : Lifetime} (hslot : C.Known slot) (hlocal : slot.isSlot = true)
    (hassigned : C.Known assigned) : C.Match (rebindLocal slot assigned ty)
      (rebindLocal (slot.renumber C.ahead) (assigned.renumber C.ahead) ty) := by
  have hours : C.Ours slot.path := C.ours hslot (by
    simp only [Lifetime.isSlot, decide_eq_true_eq] at hlocal
    simp [Lifetime.isNone, hlocal])
  unfold Flow.rebindLocal
  rw [Lifetime.path_renumber]
  refine C.bind (C.newVersion hours) fun version _ h => ?_
  obtain ⟨rfl, hversion, hsome⟩ := h
  refine C.bind (unify hversion hassigned) fun _ _ _ => ?_
  exact C.bind (C.store hversion (.inl hslot)) fun _ _ _ => C.adopt hversion hsome hslot

theorem assignMember {place new : Extent} (hplace : C.Admits place) (hnew : C.Admits new) :
    C.Match (assignMember env place new span field)
      (assignMember env (place.renumber C.ahead) (new.renumber C.ahead) span field) := by
  unfold Flow.assignMember
  simp only [Extent.slot_renumber, Extent.value_renumber, Lifetime.isSlot_renumber,
    Lifetime.isNone_renumber]
  split
  · rename_i hslot
    split
    · exact rebindLocal hplace.2 hslot hnew.1
    · exact done
  · split
    · exact done
    · exact C.bind (check hplace.2 hnew.1) fun _ _ _ => C.store hnew.1 (.inl hplace.1)

theorem assign (htarget : C.Match (recur .place target) (recur' .place target))
    (hvalue : C.Match (recur .value value) (recur' .value value)) :
    C.Match (assign env recur id target value) (assign env recur' id target value) := by
  refine C.bind htarget fun _ _ _ => C.bind hvalue fun _ _ _ =>
    bindMap bundleOf fun places hplaces => ?_
  refine bindMap bundleOf fun assigned hassigned => ?_
  refine bindLift fun node _ => ?_
  refine bindLift fun ty _ => ?_
  refine bindLift fun fields _ => ?_
  refine C.bind (forM fun field _ => ?_) fun _ _ _ => ?_
  · rw [Bundle.getElem?_renumber, Bundle.getElem?_renumber]
    cases hplace : places[field.path]? with
    | none => exact C.throw
    | some place =>
      cases hnew : assigned[field.path]? with
      | none => exact C.throw
      | some new => exact assignMember (hplaces _ _ hplace) (hassigned _ _ hnew)
  · refine bindLift fun path? hpath? => ?_
    cases path? with
    | none => exact recordVoid
    | some path =>
      have hours : C.Ours path := Path.append_whole path ▸ ours_of_placePath? hpath? .whole
      refine bindMap escapingOf fun escaping hescaping => ?_
      exact C.bind (C.capture hours hescaping) fun _ _ _ => recordVoid

/-! ## The analysis of a node -/

theorem rule {node : Node} (hnode : env.node id = .ok node)
    (hrec : ∀ position, ∀ child ∈ node.expr.children, C.Match (recur position child)
      (recur' position child)) :
    C.Match (rule env recur position id node.expr) (rule env recur' position id node.expr) := by
  have hnames : ∀ {path}, node.expr = .var path ∨
    (∃ value, node.expr = .declaration path value) → ∀ m, C.Ours (path ++ m) := C.names hnode
  have hvar : ∀ {path}, node.expr = .var path → C.Ours path := fun {path} hexpr =>
    Path.append_whole path ▸ hnames (.inl hexpr) .whole
  generalize node.expr = expr at *
  have hoperand : ∀ position child (_ : child ∈ expr.children := by simp [Expr.children]),
      C.Match (recur position child) (recur' position child) := hrec
  cases position with
  | value =>
    cases expr with
    | literal value => exact operator (by simp)
    | var path => exact readVariable (hvar rfl)
    | addressOf target => exact addressOf (hoperand _ _)
    | dereference target => exact dereference (hoperand _ _)
    | memberAccess target member => exact readMember (hoperand _ _)
    | index target subscript =>
      exact index (hoperand _ _) (hoperand _ _)
    | new initializer =>
      refine allocate fun value hvalue => hrec _ _ ?_
      simpa [Expr.children] using hvalue
    | structLiteral fields =>
      refine structLiteral fun field hfield => hrec _ _ ?_
      exact List.mem_map_of_mem hfield
    | unary op operand | binary op lhs rhs => exact operator fun child hchild => hrec _ _ hchild
    | call function arguments => exact call fun child hchild => hrec _ _ hchild
    | block statements => exact block fun child hchild => hrec _ _ hchild
    | declaration path value =>
      exact declareVariable (hnames (.inr ⟨value, rfl⟩)) (hoperand _ _)
    | assignment target value =>
      exact assign (hoperand _ _) (hoperand _ _)
    | cond condition positive negative =>
      refine cond (hoperand _ _) (hoperand _ _) ?_
      intro child hchild
      exact hrec _ _ (by simp_all [Expr.children])
    | loop condition body =>
      exact loop (hoperand _ _) (hoperand _ _)
    | breakLoop => exact leaveIteration
    | continueLoop => exact leaveIteration
  | place =>
    cases expr with
    | var path => exact nameVariable (hvar rfl)
    | dereference target => exact dereference (hoperand _ _)
    | memberAccess target member => exact nameMember (hoperand _ _)
    | index target subscript =>
      exact index (hoperand _ _) (hoperand _ _)
    | _ => exact C.throw

/-! ## Functions -/

theorem declareParameterMember (hpath : C.Ours (path ++ field.path)) :
    C.Match (declareParameterMember path field) (declareParameterMember path field) := by
  refine C.bind C.newRoot fun slot _ h => ?_
  obtain ⟨rfl, rfl⟩ := h
  have hslot : C.Known (.root (path ++ field.path) .localSlot) := known_variable hpath (by simp)
  split
  · refine C.bind C.newRoot fun value _ h => ?_
    obtain ⟨rfl, rfl⟩ := h
    have hvalue : C.Known (.root (path ++ field.path) .localValue) := known_variable hpath (by simp)
    exact C.bind (C.store hvalue (.inl hslot)) fun _ _ _ => C.declare hpath ⟨hvalue, hslot⟩
  · exact C.declare hpath ⟨C.known_none, hslot⟩

theorem declareParameters {parameters : List Parameter}
    (hours : ∀ parameter ∈ parameters, ∀ m, C.Ours (parameter.path ++ m)) :
    C.Match (declareParameters env parameters) (declareParameters env parameters) :=
  forM fun parameter hparameter => bindLift fun _ _ => forM fun field _ =>
    declareParameterMember (hours parameter hparameter field.path)

theorem returnRoots_eq (hsim : C.Sim s t) {returned : Bundle} (hreturned : C.Bundled returned) :
    returnRoots t.context.graph (Bundle.renumber C.ahead returned) =
      returnRoots s.context.graph returned := by
  refine ExtTreeSet.ext_mem fun root => ?_
  simp only [mem_returnRoots_iff, Bundle.tracked_renumber, List.mem_map]
  constructor
  · rintro ⟨_, ⟨value, hvalue, rfl⟩, hroot⟩
    rw [C.rootsOf hsim (hreturned.tracked hvalue)] at hroot
    exact ⟨value, hvalue, hroot⟩
  · rintro ⟨value, hvalue, hroot⟩
    rw [← C.rootsOf hsim (hreturned.tracked hvalue)] at hroot
    exact ⟨_, ⟨value, hvalue, rfl⟩, hroot⟩

theorem heldVariables_eq (hsim : C.Sim s t) (hescaping : ∀ path ∈ escaping, C.Ours path) :
    heldVariables t.context.captures escaping = heldVariables s.context.captures escaping := by
  unfold heldVariables
  refine List.foldl_ext _ _ _ fun held path hpath => ?_
  rw [C.captured hsim (hescaping path (ExtTreeSet.mem_toList.1 hpath))]

theorem checkReturn {function : Function} :
    C.Match (checkReturn env function) (checkReturn env function) := by
  refine bindMap bundleOf fun returned hreturned => ?_
  refine C.bind C.get fun s t hsim => ?_
  dsimp only
  rw [returnRoots_eq hsim hreturned, Bundle.tracked_renumber]
  split
  · exact forMMap fun value hvalue => C.store (hreturned.tracked hvalue) (.inr rfl)
  · refine bindMap escapingOf fun escaping hescaping => ?_
    refine bindLift fun node _ => ?_
    rw [heldVariables_eq hsim hescaping]
    exact throwThen

end Coupling
end Flow
end Regions
