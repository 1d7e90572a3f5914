import Regions.Proofs.Members
import Regions.Proofs.Places

/-!
# Variables as values

What the frame gives for the members of a variable is what a later read of the variable finds.

* `runs_readVariable`: the bundle of a variable that is read;
* `DeclaresFields`: the fields of a new variable, each aliased to its part of the initializer;
* `runs_declareVariable`: the parts of a declaration;
* `runs_declareParameters`: every visible path belongs to a parameter.
-/

namespace Regions.Flow

variable {env : Env} {recur : Recur} {s s₁ s' : State} {id value : NodeId} {path : Path}
  {initializer : Bundle} {field : Field}

/-! ## Reading -/

/-- A variable that is read has the extents of the frame, at every path at which there are fields
that carry references and no others. -/
theorem runs_readVariable_fields (h : Runs (readVariable env id path) s () s') :
    ∃ ty fields bundle, env.typeOf id = .ok ty ∧ env.fields ty = .ok fields ∧
    Recorded id bundle s s' ∧
      ∀ m, (∃ field ∈ fields, field.path = m) →
      (∀ field ∈ fields, field.path = m → field.tracked = true) →
        ∃ extent, bundle[m]? = some extent ∧ s.frame.lookup? (path ++ m) = some extent := by
  simp only [readVariable, runs_bind_iff, runs_lift_iff, runs_get_iff] at h
  obtain ⟨ty, _, ⟨hty, rfl⟩, fields, _, ⟨hfields, rfl⟩, _, _, ⟨rfl, rfl⟩,
    entries, s₁, hentries, tracked, _, ⟨_, rfl⟩, h⟩ := h
  obtain ⟨rfl, hall⟩ := runs_mapM_of_fixed (by
    intro field _ s entry s' hrun
    simp only [runs_ite_iff, runs_bind_iff, runs_lift_iff, runs_pure_iff] at hrun
    rcases hrun with ⟨_, _, _, ⟨_, rfl⟩, _, rfl⟩ | ⟨_, _, rfl⟩ <;> rfl) hentries
  refine ⟨ty, fields, _, hty, hfields, recorded_of_runs h, ?_⟩
  rintro m ⟨field, hfield, hm⟩ htracked
  have hentry : ∀ field ∈ fields, ∀ p extent, Runs (if field.tracked = true then do
        return (field.path, ← s₁.frame.get (path ++ field.path))
      else
        return (field.path, Extent.untracked)) s₁ (p, extent) s₁ → p = field.path ∧
        (field.tracked = true → s₁.frame.lookup? (path ++ field.path) = some extent) := by
    intro field _ p extent hrun
    simp only [runs_ite_iff, runs_bind_iff, runs_lift_iff, runs_pure_iff, Prod.mk.injEq] at hrun
    rcases hrun
      with ⟨_, _, _, ⟨hget, rfl⟩, ⟨rfl, rfl⟩, _⟩ | ⟨huntracked, ⟨rfl, _⟩, _⟩
    · exact ⟨rfl, fun _ => Frame.get_eq_ok_iff.1 hget⟩
    · exact ⟨rfl, fun htracked => absurd htracked huntracked⟩
  obtain ⟨⟨p, extent⟩, hmem, hrun⟩ := forall₂_mem_left hall hfield
  obtain ⟨rfl, hlookup⟩ := hentry field hfield p extent hrun
  have hextent := hlookup (htracked field hfield hm)
  subst hm
  refine ⟨extent, getElem?_ofList hmem fun other hother => ?_, hextent⟩
  -- Another entry for the path comes from a field with references too, and so from the frame.
  obtain ⟨field', hfield', hrun'⟩ := forall₂_mem_right hall hother
  obtain ⟨hpath, hlookup'⟩ := hentry field' hfield' _ _ hrun'
  have hother' := hlookup' (htracked field' hfield' hpath.symm)
  rw [← hpath] at hother'
  exact Option.some.inj (hother'.symm.trans hextent)

/-- A variable that is read has the extents of the frame, where there are references. -/
theorem runs_readVariable (htidy : env.declarations.Tidy)
    (h : Runs (readVariable env id path) s () s') :
    ∃ ty bundle, env.typeOf id = .ok ty ∧ Recorded id bundle s s' ∧
      ∀ m, env.declarations.refersAt ty m = true → ∃ extent, bundle[m]? = some extent ∧
        s.frame.lookup? (path ++ m) = some extent := by
  obtain ⟨ty, fields, bundle, hty, hfields, hrecorded, hread⟩ := runs_readVariable_fields h
  refine ⟨ty, bundle, hty, hrecorded, fun m hrefers => ?_⟩
  obtain ⟨field, hfield, rfl, htracked⟩ :=
    Declarations.exists_field_of_refersAt htidy hfields hrefers
  refine hread field.path ⟨field, hfield, rfl⟩ fun field' hfield' hpath => ?_
  obtain rfl := Declarations.field_eq_of_path_eq htidy hfields hfield hfield' hpath.symm
  exact htracked

/-! ## Declaring -/

/-- The fields are declared below the path, and each one with references is aliased to its part of
the initializer. -/
structure DeclaresFields (path : Path) (initializer : Bundle) (fields : List Field)
    (s s' : State) : Prop where
  graph : s.context.graph.Below s'.context.graph
  lookup : ∀ q, s'.frame.lookup? q = s.frame.lookup? q ∨
    ∃ field ∈ fields, q = path ++ field.path ∧
    ∃ extent, s'.frame.lookup? q = some extent ∧
      (field.tracked = true → extent.value.isNone = false ∧
        ∃ initial, initializer[field.path]? = some initial ∧
          s'.context.graph.Unified extent.value initial.value)

namespace DeclaresFields

variable {fields rest : List Field}

theorem nil (s : State) : DeclaresFields path initializer [] s s where
  graph := Outlives.Below.refl _
  lookup := fun _ => .inl rfl

theorem append (h : DeclaresFields path initializer fields s s₁)
    (h' : DeclaresFields path initializer rest s₁ s') :
    DeclaresFields path initializer (fields ++ rest) s s' where
  graph := h.graph.trans h'.graph
  lookup := by
    intro q
    rcases h'.lookup q with hsame | ⟨field, hfield, hrest⟩
    · rcases h.lookup q with hsame' | ⟨field, hfield, hpath, extent, hlookup, halias⟩
      · exact .inl (hsame.trans hsame')
      · refine .inr
          ⟨field, List.mem_append_left _ hfield, hpath, extent, hsame.trans hlookup, ?_⟩
        intro htracked
        obtain ⟨hsome, initial, hinitial, hunified⟩ := halias htracked
        exact ⟨hsome, initial, hinitial, hunified.mono h'.graph⟩
    · exact .inr ⟨field, List.mem_append_right _ hfield, hrest⟩

end DeclaresFields

theorem declaresFields_declare {extent : Extent}
    {context : Context} (hgraph : s.context.graph.Below context.graph)
    (halias : field.tracked = true → extent.value.isNone = false ∧
      ∃ initial, initializer[field.path]? = some initial ∧
      context.graph.Unified extent.value initial.value) :
    DeclaresFields path initializer [field] s
      { s with context, frame := s.frame.declare (path ++ field.path) extent } where
  graph := hgraph
  lookup := by
    intro q
    have hlookup := Frame.lookup?_declare s.frame (path ++ field.path) extent q
    by_cases heq : q = path ++ field.path
    · rw [if_pos heq] at hlookup
      exact .inr ⟨field, List.mem_singleton_self _, heq, extent, hlookup, halias⟩
    · rw [if_neg heq] at hlookup
      exact .inl hlookup

theorem declaresFields_field (h : Runs (declareMember path initializer field) s () s') :
    DeclaresFields path initializer [field] s s' := by
  simp only [declareMember, runs_bind_iff, runs_newRoot_iff, runs_ite_iff, runs_declare_iff] at h
  obtain ⟨_, _, ⟨rfl, rfl⟩, ⟨htracked, h⟩ | ⟨huntracked, rfl⟩⟩ := h
  · cases hinitial : initializer[field.path]? with
    | none => simp [hinitial] at h
    | some initial =>
      simp only [hinitial, runs_bind_iff, runs_unify_iff, runs_store_iff, runs_declare_iff] at h
      obtain ⟨_, _, rfl, _, _, rfl, rfl⟩ := h
      refine declaresFields_declare ?_ fun _ => ⟨rfl, initial, hinitial, ?_⟩
      · exact (Outlives.below_unify _ _ _).trans (Outlives.below_store _ _ _ _)
      · exact (Outlives.unified_unify _ _ _).mono (Outlives.below_store _ _ _ _)
  · exact declaresFields_declare (Outlives.Below.refl _) fun htracked => absurd htracked huntracked

theorem declaresFields_of_runs {fields : List Field}
    (h : Runs (fields.forM (declareMember path initializer)) s () s') :
    DeclaresFields path initializer fields s s' := by
  induction h using runs_forM_rec with
  | nil s => exact .nil s
  | cons field fields hfield _ ih => exact (declaresFields_field hfield).append ih

theorem runs_declareVariable (h : Runs (declareVariable env recur id path value) s () s') :
    ∃ s₁ flow ty fields s₂, Runs (recur .value value) s () s₁ ∧
    s₁.flowAt value = some flow ∧ env.typeOf value = .ok ty ∧ env.fields ty = .ok fields ∧
      DeclaresFields path flow.bundle fields s₁ s₂ ∧ Recorded id ∅ s₂ s' ∧
      Grows s₁ s' := by
  simp only [declareVariable, runs_bind_iff, runs_bundleOf_iff, runs_lift_iff, runs_escapingOf_iff]
    at h
  obtain ⟨_, s₁, hvalue, _, _, ⟨flow, hflow, rfl, rfl⟩, ty, _, ⟨hty, rfl⟩, fields, _,
    ⟨hfields, rfl⟩, _, s₂, hloop, _, _, ⟨_, _, rfl, rfl⟩, _, _, hcapture, h⟩ := h
  have hgrows := (preserved_grows id).forM (fun field _ => grows_of_match env id
      (Coupling.declareMember trivial fun _ _ _ => ⟨trivial, trivial⟩)) _ _ _ hloop
  have hgrows' :=
    grows_of_match env id (Coupling.capture _ trivial fun _ _ => trivial) _ _ _ hcapture
  rw [capture, runs_modifyContext_iff] at hcapture
  subst hcapture
  exact ⟨_, flow, ty, fields, _, hvalue, hflow, hty, hfields, declaresFields_of_runs hloop,
    (recorded_of_runs h).of_withContext rfl rfl rfl,
    hgrows.trans (hgrows'.trans (Grows.of_record h))⟩

/-! ## Parameters -/

/-- Every visible path belongs to a parameter; what was passed in at a reference is a region of its
own. -/
def ParametersVisible (env : Env) (parameters : List Parameter) (frame : Frame) : Prop :=
  ∀ q extent, frame.lookup? q = some extent →
    ∃ p ∈ parameters, ∃ fields, ∃ field ∈ fields,
    env.fields p.ty = .ok fields ∧ q = p.path ++ field.path ∧
      (field.tracked = true → extent.value = .root q .localValue)

theorem frame_declareParameterMember (h : Runs (declareParameterMember path field) s () s') :
    (∀ id, s'.flowAt id = s.flowAt id) ∧ ∃ extent, s'.frame = s.frame.declare
    (path ++ field.path) extent ∧
      (field.tracked = true → extent.value = .root (path ++ field.path) .localValue) := by
  obtain ⟨-, rfl⟩ | ⟨huntracked, rfl⟩ := runs_declareParameterMember h
  · exact ⟨fun _ => rfl, _, rfl, fun _ => rfl⟩
  · exact ⟨fun _ => rfl, _, rfl, fun htracked => absurd htracked huntracked⟩

theorem runs_declareParameters {parameters rest : List Parameter}
    (hmem : ∀ p ∈ rest, p ∈ parameters) (hs : ParametersVisible env parameters s.frame)
    (h : Runs (declareParameters env rest) s () s') :
    ParametersVisible env parameters s'.frame ∧ ∀ id, s'.flowAt id = s.flowAt id := by
  refine runs_forM_induction (P := fun t => ParametersVisible env parameters t.frame ∧
    ∀ id, t.flowAt id = s.flowAt id) (fun p hp s₁ s₂ hs₁ hrun =>
    ?_) ⟨hs, fun _ => rfl⟩ h
  simp only [runs_bind_iff, runs_lift_iff] at hrun
  obtain ⟨fields, _, ⟨hfields, rfl⟩, hrun⟩ := hrun
  refine runs_forM_induction (P := fun t => ParametersVisible env parameters t.frame ∧
    ∀ id, t.flowAt id = s.flowAt id) (fun field hfield s₃ s₄ hs₃ hrun => ?_) hs₁ hrun
  obtain ⟨hflow, extent, hframe, hvalue⟩ := frame_declareParameterMember hrun
  refine ⟨fun q found hfound => ?_, fun id => (hflow id).trans (hs₃.2 id)⟩
  rw [hframe, Frame.lookup?_declare] at hfound
  split at hfound
  · rename_i heq
    cases hfound
    exact ⟨p, hmem p hp, fields, field, hfield, hfields, heq,
      fun htracked => heq ▸ hvalue htracked⟩
  · exact hs₃.1 q found hfound

end Regions.Flow
