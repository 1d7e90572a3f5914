import Regions.Proofs.Places

/-!
# Assignments

An assignment names its target, evaluates its value, and then goes through the fields of the
target's type. A field whose place is a slot gets a new version of the variable in that slot.

* `runs_assign`: the parts of an assignment;
* `Rebinds`, `BoundTo`: which variables got a new version, and of which data;
* `rebinds_assignFields`: what the fields of a local target do.
-/

namespace Regions.Flow

variable {env : Env} {recur : Recur} {s t s' : State} {id target value : NodeId}
  {places assigned : Bundle} {span : Span} {field : Field}

/-! ## The parts of an assignment -/

/-- Assigns one field of a value to the same field of a place. -/
def assignField (env : Env) (id : NodeId) (places assigned : Bundle) (span : Span)
    (field : Field) : FlowM Unit :=
  match places[field.path]?, assigned[field.path]? with
  | some place, some new => assignMember env place new span field
  | _, _ => throw (.fault (.assignmentMember id field.path))

theorem runs_assignField (h : Runs (assignField env id places assigned span field) s () s') :
    ∃ place new, places[field.path]? = some place ∧ assigned[field.path]? = some new ∧
      Runs (assignMember env place new span field) s () s' := by
  unfold assignField at h
  split at h
  · rename_i place new hplace hnew
    exact ⟨place, new, hplace, hnew, h⟩
  · exact (runs_throw_iff.1 h).elim

theorem grows_assignField : Keeps Grows (assignField env id places assigned span field) := by
  intro s u s' hrun
  obtain ⟨place, new, _, _, hrun⟩ := runs_assignField hrun
  exact grows_of_match env id
    (Coupling.assignMember ⟨trivial, trivial⟩ ⟨trivial, trivial⟩) s u s' hrun

theorem grows_assignFields {fields : List Field} :
    Keeps Grows (fields.forM (assignField env id places assigned span)) :=
  (preserved_grows id).forM fun _ _ => grows_assignField

theorem runs_assign (h : Runs (assign env recur id target value) s () s') :
    ∃ t₀ t places assigned node ty fields t', Runs (recur .place target) s () t₀ ∧
      Runs (recur .value value) t₀ () t ∧ t.flowAt target = some places ∧
      t.flowAt value = some assigned ∧ env.node value = .ok node ∧
      env.typeOf target = .ok ty ∧ env.fields ty = .ok fields ∧
      Runs (fields.forM (assignField env id places.bundle assigned.bundle node.span)) t () t' ∧
      Recorded id ∅ t' s' ∧ Grows t s' := by
  simp only [assign, runs_bind_iff, runs_bundleOf_iff, runs_lift_iff] at h
  obtain ⟨_, t₀, htarget, _, t, hvalue, _, _, ⟨places, hplaces, rfl, rfl⟩, _, _,
    ⟨assigned, hassigned, rfl, rfl⟩, node, _, ⟨hnode, rfl⟩, ty, _,
    ⟨hty, rfl⟩, fields, _, ⟨hfields, rfl⟩, _, t', hloop, path?, _, ⟨_, rfl⟩, h⟩ := h
  refine ⟨t₀, _, places, assigned, node, ty, fields, _, htarget, hvalue, hplaces,
    hassigned, hnode, hty, hfields, hloop, ?_⟩
  have hgrows := grows_assignFields _ _ _ hloop
  cases path? with
  | none => exact ⟨recorded_of_runs h, hgrows.trans (Grows.of_record h)⟩
  | some path =>
    simp only [runs_bind_iff, runs_escapingOf_iff] at h
    obtain ⟨_, _, ⟨_, _, rfl, rfl⟩, _, _, hcapture, h⟩ := h
    have hgrows' :=
      grows_of_match env id (Coupling.capture _ trivial fun _ _ => trivial) _ _ _ hcapture
    rw [capture, runs_modifyContext_iff] at hcapture
    subst hcapture
    exact ⟨(recorded_of_runs h).of_withContext rfl rfl rfl,
      hgrows.trans (hgrows'.trans (Grows.of_record h))⟩

/-! ## New versions of local variables -/

theorem runs_rebindLocal_iff {slot assigned : Lifetime} {ty : Ty} :
    Runs (rebindLocal slot assigned ty) s () s' ↔
      ∃ frame, s.frame.rebind slot.path ⟨s.nextVersionOf slot.path, slot⟩ = .ok frame ∧
      s' = {
          context := { s.context with
            graph := (s.context.graph.unify (s.nextVersionOf slot.path) assigned).store
              (s.nextVersionOf slot.path) slot ty
            rebound := s.context.rebound ++ [(slot.path, s.nextVersionOf slot.path)]
            nextVersion := s.context.nextVersion + 1 }
          frame
          recorded := s.recorded } := by
  simp only [rebindLocal, runs_bind_iff, runs_newVersion_iff, runs_unify_iff, runs_store_iff,
    runs_adopt_iff]
  constructor
  · rintro ⟨_, _, ⟨rfl, rfl⟩, _, _, rfl, _, _, rfl, frame, hframe, rfl⟩
    exact ⟨frame, hframe, rfl⟩
  · rintro ⟨frame, hframe, rfl⟩
    exact ⟨_, _, ⟨rfl, rfl⟩, (), _, rfl, (), _, rfl, frame, hframe, rfl⟩

/-- Between two states, the variable at the path got a new version. -/
def Rebinds (s s' : State) (path : Path) : Prop :=
  ∃ version, (path, version) ∈ s'.context.rebound.drop s.context.rebound.length

/-- The current data of the variable at the path stands for `data`. -/
def BoundTo (s : State) (path : Path) (data : Lifetime) : Prop :=
  ∃ extent, s.frame.lookup? path = some extent ∧ s.context.graph.Unified extent.value data

theorem rebinds_iff_of_append {entries : List (Path × Lifetime)}
    (h : s'.context.rebound = s.context.rebound ++ entries) (path : Path) :
    Rebinds s s' path ↔ ∃ version, (path, version) ∈ entries := by
  rw [Rebinds, h, List.drop_left]

theorem BoundTo.of_still {path : Path} {data : Lifetime} (h : BoundTo s path data)
    (hstill : Still s s') : BoundTo s' path data := by
  obtain ⟨extent, hlookup, hunified⟩ := h
  exact ⟨extent, hstill.frame ▸ hlookup, hstill.graph ▸ hunified⟩

/-- The fields of a place whose storage is all in slots, each with its value, were assigned. -/
structure AssignsLocals (places assigned : Bundle) (fields : List Field) (s s' : State) :
    Prop where
  graph : s.context.graph.Below s'.context.graph
  log : ∃ entries, s'.context.rebound = s.context.rebound ++ entries ∧
    ∀ path, (∃ version, (path, version) ∈ entries) ↔
    ∃ field ∈ fields, field.tracked = true ∧
      ∃ place, places[field.path]? = some place ∧ place.slot.path = path
  bound : ∀ path, Rebinds s s' path → ∃ field ∈ fields, field.tracked = true ∧
    ∃ place new, places[field.path]? = some place ∧ assigned[field.path]? = some new ∧
      place.slot.path = path ∧ BoundTo s' path new.value
  kept : ∀ path, ¬ Rebinds s s' path → s'.frame.lookup? path = s.frame.lookup? path
  given : ∀ field ∈ fields, ∃ place new, places[field.path]? = some place ∧
    assigned[field.path]? = some new

/-- One field: its variable gets a new version, if the field carries references. -/
theorem assignsLocals_field
    (hslot : ∀ place, places[field.path]? = some place → place.slot.isSlot = true)
    (h : Runs (assignField env id places assigned span field) s () s') :
    AssignsLocals places assigned [field] s s' := by
  obtain ⟨place, new, hplace, hnew, h⟩ := runs_assignField h
  have hgiven : ∀ f ∈ [field], ∃ place new, places[f.path]? = some place ∧
      assigned[f.path]? = some new := by
    intro f hf
    obtain rfl := List.mem_singleton.1 hf
    exact ⟨place, new, hplace, hnew⟩
  simp only [assignMember, hslot place hplace, if_true, runs_ite_iff, runs_pure_iff] at h
  rcases h with ⟨htracked, h⟩ | ⟨htracked, _, rfl⟩
  · obtain ⟨frame, hframe, hs'⟩ := runs_rebindLocal_iff.1 h
    have hrebound : s'.context.rebound =
        s.context.rebound ++ [(place.slot.path, s.nextVersionOf place.slot.path)] := by
      rw [hs']
    have hlog : ∀ path, Rebinds s s' path ↔ path = place.slot.path := by
      intro path
      rw [rebinds_iff_of_append hrebound]
      simp
    have hlookup : ∀ path, s'.frame.lookup? path = if path = place.slot.path then
        some ⟨s.nextVersionOf place.slot.path, place.slot⟩ else s.frame.lookup? path := by
      rw [hs']
      exact Frame.lookup?_rebind hframe
    refine { graph := ?_, log := ⟨_, hrebound, fun path => ?_⟩, bound := ?_, kept := ?_,
             given := hgiven }
    · rw [hs']
      exact (Outlives.below_unify _ _ _).trans (Outlives.below_store _ _ _ _)
    · rw [← rebinds_iff_of_append hrebound, hlog]
      simp only [List.mem_singleton, exists_eq_left, htracked, hplace, Option.some.injEq,
        exists_eq_left', true_and]
      exact eq_comm
    · intro path hpath
      obtain rfl := (hlog path).1 hpath
      refine ⟨field, List.mem_singleton_self _, htracked, place, new, hplace, hnew, rfl, ?_⟩
      refine ⟨_, by rw [hlookup, if_pos rfl], ?_⟩
      rw [hs']
      exact (Outlives.unified_unify _ _ _).mono (Outlives.below_store _ _ _ _)
    · intro path hpath
      rw [hlookup, if_neg fun heq => hpath ((hlog path).2 heq)]
  · refine { graph := Outlives.Below.refl _, log := ⟨[], by simp, by simp [htracked]⟩,
             bound := ?_, kept := fun _ _ => rfl, given := hgiven }
    intro path hpath
    simp [Rebinds] at hpath

theorem AssignsLocals.append {first rest : List Field} {s₁ : State}
    (h : AssignsLocals places assigned first s s₁)
    (h' : AssignsLocals places assigned rest s₁ s') :
    AssignsLocals places assigned (first ++ rest) s s' := by
  obtain ⟨entries, hentries, hlog⟩ := h.log
  obtain ⟨entries', hentries', hlog'⟩ := h'.log
  have hall : s'.context.rebound = s.context.rebound ++ (entries ++ entries') := by
    rw [hentries', hentries, List.append_assoc]
  have hsplit : ∀ path, Rebinds s s' path ↔ Rebinds s s₁ path ∨ Rebinds s₁ s' path := by
    intro path
    rw [rebinds_iff_of_append hall, rebinds_iff_of_append hentries, rebinds_iff_of_append hentries']
    simp [exists_or]
  refine { graph := h.graph.trans h'.graph, log := ⟨_, hall, fun path => ?_⟩, bound := ?_,
           kept := ?_, given := ?_ }
  · rw [← rebinds_iff_of_append hall, hsplit, rebinds_iff_of_append hentries,
      rebinds_iff_of_append hentries', hlog, hlog']
    simp [or_and_right, exists_or]
  · intro path hpath
    by_cases hlater : Rebinds s₁ s' path
    · obtain ⟨field, hfield, hrest⟩ := h'.bound path hlater
      exact ⟨field, List.mem_append_right _ hfield, hrest⟩
    · -- The last version of the variable is one of the first fields: it is still the current one.
      have hearlier := ((hsplit path).1 hpath).resolve_right hlater
      obtain ⟨field, hfield, htracked, place, new, hplace, hnew, hslot, extent,
          hlookup, hunified⟩ :=
        h.bound path hearlier
      refine ⟨field, List.mem_append_left _ hfield, htracked, place, new, hplace,
        hnew, hslot, ?_⟩
      exact ⟨extent, (h'.kept path hlater).trans hlookup, hunified.mono h'.graph⟩
  · intro path hpath
    rw [hsplit, not_or] at hpath
    exact (h'.kept path hpath.2).trans (h.kept path hpath.1)
  · intro field hfield
    rcases List.mem_append.1 hfield with hfield | hfield
    · exact h.given field hfield
    · exact h'.given field hfield

theorem assignsLocals_fields {fields : List Field}
    (hslot : ∀ field ∈ fields, ∀ place, places[field.path]? = some place →
      place.slot.isSlot = true)
    (h : Runs (fields.forM (assignField env id places assigned span)) s () s') :
    AssignsLocals places assigned fields s s' := by
  induction h using runs_forM_rec with
  | nil s =>
    refine { graph := Outlives.Below.refl _, log := ⟨[], by simp, by simp⟩,
             bound := ?_, kept := fun _ _ => rfl, given := by simp }
    intro path hpath
    simp [Rebinds] at hpath
  | cons field fields hfield _ ih =>
    have hfirst := assignsLocals_field (hslot field List.mem_cons_self) hfield
    exact hfirst.append (ih fun f hf => hslot f (List.mem_cons_of_mem _ hf))

end Regions.Flow
