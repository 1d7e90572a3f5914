import Regions.Proofs.Coverage

/-!
# Branches and loops

Where executions meet, a variable gets a version that holds what each of them made of it.

* `Tied`: a value is that of a variable in the end, or is stored in it;
* `Renews`, `RenewsAll`: variables get new versions that hold given data;
* `runs_cond`, `runs_joinBranches`: the parts of a node with branches, and its value;
* `runs_loop`: the parts of a loop, with the entry versions and what leads back to them.
-/

namespace Regions.Flow

variable {env : Env} {recur : Recur} {s s₁ s' : State} {id : NodeId} {q : Path}
  {after value : Lifetime}

/-- The value is the one that a variable has in the end, or is stored in it. -/
def Tied (G : Outlives) (after value : Lifetime) : Prop :=
  value = after ∨ G.Holds after value

theorem Tied.mono {G H : Outlives} (h : Tied G after value) (hbelow : G.Below H) :
    Tied H after value :=
  Outlives.Near.mono hbelow h

theorem leads_of_tied {G : Outlives} (hafter : after.isNone = false)
    (h : value.isNone = false → Tied G after value) : G.Leads after value :=
  fun hsome => ⟨hafter, Outlives.Near.reaches (h hsome)⟩

/-! ## New versions of variables -/

/-- A new version of the variable at `q` is made that holds the data, and becomes the current
one. -/
structure Renews (q : Path) (slot : Lifetime) (data : List Lifetime) (s s' : State) : Prop where
  grows : Grows s s'
  current : s'.frame.lookup? q = some ⟨s.nextVersionOf q, slot⟩
  kept : ∀ p, p ≠ q → s'.frame.lookup? p = s.frame.lookup? p
  flowAt : ∀ node, s'.flowAt node = s.flowAt node
  rebound : s'.context.rebound = s.context.rebound ++ [(q, s.nextVersionOf q)]
  graph : Outlives.Adds
    (fun c x => c = s.nextVersionOf q ∧ x ∈ data ∨ c = slot ∧ x = s.nextVersionOf q)
    s.context.graph s'.context.graph

theorem Renews.tied {slot : Lifetime} {data : List Lifetime} (h : Renews q slot data s s')
    (hvalue : value ∈ data) (hsome : value.isNone = false) :
    Tied s'.context.graph (s.nextVersionOf q) value := by
  by_cases heq : value = s.nextVersionOf q
  · exact .inl heq
  · exact .inr ((h.graph _ _).2 (.inl ⟨.inl ⟨rfl, hvalue⟩, heq, hsome, rfl⟩))

theorem renews_adopted {slot : Lifetime} {data : List Lifetime} {graph : Outlives} {frame : Frame}
    (hframe : s.frame.rebind q ⟨s.nextVersionOf q, slot⟩ = .ok frame)
    (hgraph : Outlives.Adds (fun c x => c = s.nextVersionOf q ∧ x ∈ data ∨
      c = slot ∧ x = s.nextVersionOf q) s.context.graph graph) :
    Renews q slot data s (s.adopted q graph frame) where
  grows := grows_adopted hgraph.below q frame
  current := (Frame.lookup?_rebind hframe q).trans (if_pos rfl)
  kept p hp := (Frame.lookup?_rebind hframe p).trans (if_neg hp)
  flowAt _ := rfl
  rebound := rfl
  graph := hgraph

/-- New versions of the variables at the paths, one after the other, with the data that each is to
hold. -/
inductive RenewsAll (data : Path → Extent → List Lifetime) :
    List Path → State → State → Prop
  | nil (s : State) : RenewsAll data [] s s
  | cons {q : Path} {before : Extent} {paths : List Path} {s s₁ s' : State} : q ∉ paths →
      s.frame.lookup? q = some before → Renews q before.slot (data q before) s s₁ →
      RenewsAll data paths s₁ s' → RenewsAll data (q :: paths) s s'

namespace RenewsAll

variable {data : Path → Extent → List Lifetime} {paths : List Path}

section

variable (h : RenewsAll data paths s s')

include h

theorem grows : Grows s s' := by
  induction h with
  | nil s => exact Grows.refl s
  | cons _ _ hfirst _ ih => exact hfirst.grows.trans ih

theorem flowAt (node : NodeId) : s'.flowAt node = s.flowAt node := by
  induction h with
  | nil s => rfl
  | cons _ _ hfirst _ ih => exact ih.trans (hfirst.flowAt node)

theorem kept {p : Path} (hp : p ∉ paths) : s'.frame.lookup? p = s.frame.lookup? p := by
  induction h with
  | nil s => rfl
  | cons _ _ hfirst _ ih =>
    rw [List.mem_cons, not_or] at hp
    exact (ih hp.2).trans (hfirst.kept p hp.1)

/-- In the end every variable has a version that holds its data, in its old slot. -/
theorem renewed (hq : q ∈ paths) : ∃ before t, s.frame.lookup? q = some before ∧
      s'.frame.lookup? q = some ⟨State.nextVersionOf t q, before.slot⟩ ∧
      Logged s s' q (t.nextVersionOf q) ∧ ∀ x ∈ data q before, x.isNone = false →
        Tied s'.context.graph (t.nextVersionOf q) x := by
  induction h with
  | nil s => cases hq
  | @cons first before paths s s₁ s' hnew hbefore hfirst hrest ih =>
    rcases List.mem_cons.1 hq with rfl | hq
    · refine ⟨before, s, hbefore, (hrest.kept hnew).trans hfirst.current, ?_, fun x hx hsome =>
        (hfirst.tied hx hsome).mono hrest.grows.graph⟩
      exact Logged.later (by simp [Logged, hfirst.rebound]) hrest.grows
    · obtain ⟨found, t, hfound, hafter, hlogged, htied⟩ := ih hq
      rw [hfirst.kept q (fun heq => hnew (heq ▸ hq))] at hfound
      exact ⟨found, t, hfound, hafter, hlogged.earlier hfirst.grows, htied⟩

theorem current {version : Lifetime} (hlogged : Logged s s' q version) :
    q ∈ paths ∧ ∃ slot, s'.frame.lookup? q = some ⟨version, slot⟩ := by
  induction h with
  | nil s => simp [Logged] at hlogged
  | @cons first before paths s s₁ s' hnew hbefore hfirst hrest ih =>
    rcases hlogged.split hfirst.grows hrest.grows with hlogged | hlogged
    · simp only [Logged, hfirst.rebound, List.drop_left, List.mem_singleton, Prod.mk.injEq]
        at hlogged
      obtain ⟨rfl, rfl⟩ := hlogged
      exact ⟨List.mem_cons_self, _, (hrest.kept hnew).trans hfirst.current⟩
    · exact (ih hlogged).imp_left (List.mem_cons_of_mem _)

theorem lawful {U : Path → Prop} (hs : Lawful U s) : Lawful U s' := by
  refine ⟨fun path extent hlookup => ?_,
    fun id flow hflow => hs.recorded id flow (h.flowAt id ▸ hflow)⟩
  by_cases hpath : path ∈ paths
  · obtain ⟨before, t, hbefore, hafter, -⟩ := h.renewed hpath
    cases hlookup.symm.trans hafter
    exact ⟨nofun, (hs.frame path before hbefore).slot, fun _ => ⟨rfl, rfl⟩, nofun⟩
  · exact hs.frame path extent (h.kept hpath ▸ hlookup)

end

end RenewsAll

/-! ## Branches -/

section Branches

variable {positive negative : PathMap Extent}

/-- The data that the two sides have for the variable at a path, be it that from before the
branches. -/
def sides (positive negative : PathMap Extent) (q : Path) (before : Extent) : List Lifetime :=
  [(positive[q]?.getD before).value, (negative[q]?.getD before).value]

theorem renews_mergeVariable (h : Runs (mergeVariable positive negative q) s () s') :
    ∃ before, s.frame.lookup? q = some before ∧
      Renews q before.slot (sides positive negative q before) s s' := by
  obtain ⟨before, frame, hbefore, hframe, rfl⟩ := runs_mergeVariable_adopted h
  have hadds := ((Outlives.adds_store s.context.graph (positive[q]?.getD before).value
    (s.nextVersionOf q) none).trans (Outlives.adds_store _ (negative[q]?.getD before).value
    (s.nextVersionOf q) none)).trans (Outlives.adds_store _ (s.nextVersionOf q) before.slot none)
  exact ⟨before, hbefore,
    renews_adopted hframe (hadds.congr fun c x => by simp [sides, and_or_left])⟩

theorem renewsAll_mergeBranches (h : Runs (mergeBranches positive negative) s () s') :
    RenewsAll (sides positive negative) (positive ∪ negative).keys s s' := by
  have hnodup := Std.ExtTreeMap.nodup_keys (t := positive ∪ negative)
  unfold mergeBranches at h
  generalize (positive ∪ negative).keys = paths at h hnodup
  induction h using runs_forM_rec with
  | nil s => exact .nil s
  | cons q paths hq _ ih =>
    obtain ⟨hnew, hnodup⟩ := List.nodup_cons.1 hnodup
    obtain ⟨before, hbefore, hrenews⟩ := renews_mergeVariable hq
    exact .cons hnew hbefore hrenews (ih hnodup)

end Branches

/-- A member of the joined value of two branches. -/
def Env.joinedEntry (env : Env) (id : NodeId) (field : Field) : Path × Extent :=
  (field.path, if field.tracked then .ofValue (env.joinedAt id field) else .untracked)

/-- One member of the joined value holds that member of each side. -/
def JoinStores (env : Env) (id : NodeId) (positive negative : Bundle) (field : Field)
    (c x : Lifetime) : Prop :=
  c = env.joinedAt id field ∧ field.tracked = true ∧ ∃ extent : Extent, x = extent.value ∧
    (positive[field.path]? = some extent ∨ negative[field.path]? = some extent)

theorem storesOnly_joinMember {positive negative : Bundle} {field : Field} {entry : Path × Extent}
    (h : Runs (joinMember (env.tempPath "if" id) positive negative field) s entry s') :
    entry = env.joinedEntry id field ∧ StoresOnly
    (JoinStores env id positive negative field) s s' := by
  have hstores : ∀ {s s' : State} {bundle : Bundle},
      Runs (storeFrom bundle (env.joinedAt id field) field) s () s' →
      StoresOnly (fun c x => c = env.joinedAt id field ∧ ∃ extent : Extent, x = extent.value ∧
        bundle[field.path]? = some extent) s s' := by
    intro s s' bundle h
    unfold storeFrom at h
    split at h
    · rename_i extent hget
      exact (storesOnly_store h).congr fun c x => by simp [hget]
    · rename_i hget
      obtain ⟨-, rfl⟩ := runs_pure_iff.1 h
      exact StoresOnly.refl (by simp [hget])
  rw [joinMember_eq] at h
  rcases runs_ite_iff.1 h with ⟨htracked, h⟩ | ⟨huntracked, h⟩
  · simp only [runs_bind_iff, runs_pure_iff] at h
    obtain ⟨_, s₁, hfirst, _, s₂, hsecond, rfl, rfl⟩ := h
    refine ⟨by
      rw [Env.joinedEntry, if_pos htracked]; rfl, ((hstores hfirst).trans (hstores hsecond)).congr
      fun c x => ?_⟩
    simp only [JoinStores, htracked, true_and]
    grind
  · obtain ⟨rfl, rfl⟩ := runs_pure_iff.1 h
    exact ⟨by
      rw [Env.joinedEntry, if_neg huntracked], StoresOnly.refl fun c x hE => huntracked hE.2.1⟩

/-- The members of the joined value, which hold those of the two sides. -/
structure JoinsValues (env : Env) (id : NodeId) (fields : List Field) (positive negative : Bundle)
    (s s' : State) : Prop where
  unrecorded : s.flowAt id = none
  finishes : Finishes id (.ofList (fields.map (env.joinedEntry id)) _) s s'
  graph : Outlives.Adds
    (fun c x => ∃ field ∈ fields, JoinStores env id positive negative field c x)
    s.context.graph s'.context.graph

theorem runs_joinBranches {positive negative : NodeId} {ty : Ty}
    (h : Runs (joinBranches env id positive negative ty) s () s') :
    ∃ fields positiveFlow negativeFlow, env.fields ty = .ok fields ∧
      s.flowAt positive = some positiveFlow ∧ s.flowAt negative = some negativeFlow ∧
      JoinsValues env id fields positiveFlow.bundle negativeFlow.bundle s s' := by
  simp only [joinBranches, runs_bind_iff, runs_lift_iff, runs_bundleOf_iff, runs_ite_iff,
    runs_escapingOf_iff, runs_pure_iff] at h
  obtain ⟨fields, _, ⟨hfields, rfl⟩, _, _, ⟨positiveFlow, hpositive, rfl, rfl⟩, _, s,
    ⟨negativeFlow, hnegative, rfl, rfl⟩, entries, s₁, hentries, tracked, _,
    ⟨_, rfl⟩, h⟩ := h
  have hrecord : ∃ escaping, Runs (record id (.ofList entries _) escaping) s₁ () s' := by
    rcases h with ⟨_, _, _, ⟨_, _, rfl, rfl⟩, _, _, ⟨_, _, rfl, rfl⟩, _, _,
      ⟨rfl, rfl⟩, h⟩ | ⟨_, _, _, ⟨rfl, rfl⟩, h⟩ <;>
    exact ⟨_, h⟩
  obtain ⟨escaping, hrecord⟩ := hrecord
  obtain ⟨hall, graph, rfl, hadds⟩ := storesOnly_mapM
    (E := JoinStores env id positiveFlow.bundle negativeFlow.bundle)
    (fun field _ s entry s' hrun => storesOnly_joinMember hrun) hentries
  obtain rfl := eq_map_of_forall₂ hall
  obtain ⟨hnone, hcontext, -⟩ := runs_record hrecord
  have hgrows : Grows s (s.withGraph graph) := { Grows.refl s with graph := hadds.below }
  exact ⟨fields, positiveFlow, negativeFlow, hfields, hpositive, hnegative, hnone,
    finishes_of_runs hgrows rfl hrecord, by rw [hcontext]; exact hadds⟩

/-- The data of the joined value has lifetimes of its own. -/
theorem JoinsValues.exists_joinedAt {fields : List Field} {positive negative : Bundle}
    {flow : NodeFlow} {m : Path} {extent : Extent}
    (h : JoinsValues env id fields positive negative s s') (hflow : s'.flowAt id = some flow)
    (hextent : flow.bundle[m]? = some extent) (hsome : extent.value.isNone = false) :
    ∃ field, extent.value = env.joinedAt id field := by
  obtain ⟨escaping, hself⟩ := h.finishes.flowAt
  cases hself.symm.trans hflow
  obtain ⟨field, -, hentry⟩ := List.mem_map.1 (mem_of_getElem?_ofList hextent)
  cases hentry
  split at hsome
  · rename_i htracked
    exact ⟨field, by rw [if_pos htracked]; rfl⟩
  · cases hsome

/-- At a reference, the joined value leads to what each side has there. -/
theorem JoinsValues.leads (htidy : env.declarations.Tidy) {fields : List Field} {ty : Ty}
    (hfields : env.fields ty = .ok fields) {positive negative : Bundle}
    (h : JoinsValues env id fields positive negative s s') {m : Path}
    (hrefers : env.declarations.refersAt ty m = true) : ∃ joined,
    (Std.ExtTreeMap.ofList (fields.map (env.joinedEntry id)) compare)[m]? = some joined ∧
      ∀ extent : Extent, positive[m]? = some extent ∨ negative[m]? = some extent →
        s'.context.graph.Leads joined.value extent.value := by
  obtain ⟨field, hfield, rfl, htracked⟩ :=
    Declarations.exists_field_of_refersAt htidy hfields hrefers
  obtain ⟨found, hfound⟩ :=
    exists_getElem?_ofList (List.mem_map_of_mem (f := env.joinedEntry id) hfield)
  -- The entry that counts comes from the same field, which its path determines.
  obtain ⟨other, hother, hentry⟩ := List.mem_map.1 (mem_of_getElem?_ofList hfound)
  simp only [Env.joinedEntry, Prod.mk.injEq] at hentry
  obtain rfl := Declarations.field_eq_of_path_eq htidy hfields hother hfield hentry.1
  obtain ⟨-, rfl⟩ := hentry
  refine ⟨_, hfound, fun extent hextent hsome => ?_⟩
  rw [if_pos htracked]
  exact ⟨rfl,
    h.graph.reaches ⟨other, hother, rfl, htracked, extent, rfl, hextent⟩ rfl hsome⟩

/-- The states on the way through branches: after the condition, and where each branch ends. A
branch that is not there ends as it begins. -/
structure RunsBranches (env : Env) (depth : Nat) (condition positive : NodeId)
    (negative? : Option NodeId) (s s₁ positiveEnd negativeEnd : State) : Prop where
  condition : Runs (analyzeNode env depth .value condition) s () s₁
  positive : Runs (analyzeNode env depth .value positive) { s₁ with frame := s₁.frame.child }
    () positiveEnd
  negative : match negative? with
    | some negative => Runs (analyzeNode env depth .value negative)
        { positiveEnd with frame := s₁.frame.child } () negativeEnd
    | none => negativeEnd = { positiveEnd with frame := s₁.frame.child }

theorem rebindings_child (frame : Frame) : frame.child.rebindings = ∅ := by
  ext path
  simp [Frame.rebindings, Frame.child, Scope.empty]

/-- The parts of a node with branches: what the sides change is merged, and then the value is
joined. -/
theorem runs_cond {depth : Nat} {condition positive : NodeId} {negative? : Option NodeId}
    (h : Runs (cond env (analyzeNode env depth) id condition positive negative?) s () s') :
    ∃ s₁ positiveEnd negativeEnd s₃ ty,
      RunsBranches env depth condition positive negative? s s₁ positiveEnd negativeEnd ∧
      Runs (mergeBranches positiveEnd.frame.rebindings negativeEnd.frame.rebindings)
        { negativeEnd with frame := s₁.frame } () s₃ ∧
      env.typeOf id = .ok ty ∧
      ((negative? = none ∨ ty.isVoid = true) ∧ Runs (recordVoid id) s₃ () s' ∨
        ∃ negative, negative? = some negative ∧ Runs
        (joinBranches env id positive negative ty) s₃ () s') := by
  cases negative? with
  | none =>
    simp only [cond, runs_bind_iff, runs_within_iff, runs_pure_iff, runs_lift_iff] at h
    obtain ⟨_, s₁, hcondition, _, _, ⟨positiveEnd, hpositive, rfl, rfl⟩, _, _,
      ⟨rfl, rfl⟩, _, s₃, hmerge, ty, _, ⟨hty, rfl⟩, h⟩ := h
    rw [← rebindings_child s₁.frame] at hmerge
    exact ⟨s₁, positiveEnd, _, s₃, ty, ⟨hcondition, hpositive, rfl⟩, hmerge, hty,
      .inl ⟨.inl rfl, h⟩⟩
  | some negative =>
    simp only [cond, runs_bind_iff, runs_within_iff, runs_lift_iff, runs_ite_iff] at h
    obtain ⟨_, s₁, hcondition, _, _, ⟨positiveEnd, hpositive, rfl, rfl⟩, _, _,
      ⟨negativeEnd, hnegative, rfl, rfl⟩, _, s₃, hmerge, ty, _, ⟨hty, rfl⟩, h⟩ := h
    refine ⟨s₁, positiveEnd, negativeEnd, s₃, ty, ⟨hcondition, hpositive, hnegative⟩,
      hmerge, hty, ?_⟩
    exact h.imp (fun hvoid => ⟨.inr hvoid.1, hvoid.2⟩) fun hjoin => ⟨negative, rfl, hjoin.2⟩

/-! ## Loops -/

theorem renews_enterLoop {extent : Extent} {entry : Path × Lifetime}
    (h : Runs (enterLoop (q, extent)) s entry s') :
    entry = (q, s.nextVersionOf q) ∧ Renews q extent.slot [extent.value] s s' := by
  obtain ⟨rfl, frame, hframe, rfl⟩ := runs_enterLoop_adopted h
  have hadds := (Outlives.adds_store s.context.graph extent.value (s.nextVersionOf q) none).trans
    (Outlives.adds_store _ (s.nextVersionOf q) extent.slot none)
  exact ⟨rfl, renews_adopted hframe (hadds.congr fun c x => by simp)⟩

/-- The candidates of a loop get their entry versions. -/
theorem renewsAll_enterLoops {candidates : List (Path × Extent)}
    {entries : List (Path × Lifetime)} (hnodup : (candidates.map Prod.fst).Nodup)
    (hvisible : ∀ entry ∈ candidates, s.frame.lookup? entry.1 = some entry.2)
    (h : Runs (candidates.mapM enterLoop) s entries s') :
    RenewsAll (fun _ before => [before.value]) (candidates.map Prod.fst) s s' ∧
      ∀ q version, (q, version) ∈ entries ↔ Logged s s' q version := by
  have hall : RenewsAll (fun _ before => [before.value]) (candidates.map Prod.fst) s s' ∧
      s'.context.rebound = s.context.rebound ++ entries := by
    induction candidates generalizing s entries with
    | nil =>
      obtain ⟨rfl, rfl⟩ := runs_mapM_nil_iff.1 h
      exact ⟨.nil s, by simp⟩
    | cons candidate candidates ih =>
      obtain ⟨entry, s₁, rest, hfirst, hrest, rfl⟩ := runs_mapM_cons_iff.1 h
      obtain ⟨hnew, hnodup⟩ := List.nodup_cons.1 hnodup
      obtain ⟨rfl, hrenews⟩ := renews_enterLoop hfirst
      obtain ⟨hrest, hrebound⟩ := ih hnodup (fun other hother => by
        rw [hrenews.kept other.1 fun heq => hnew (heq ▸ List.mem_map_of_mem hother)]
        exact hvisible other (List.mem_cons_of_mem _ hother)) hrest
      exact ⟨.cons hnew (hvisible candidate List.mem_cons_self) hrenews hrest, by
        rw [hrebound, hrenews.rebound, List.append_assoc, List.singleton_append]⟩
  exact ⟨hall.1, fun q version => by rw [Logged, hall.2, List.drop_left]⟩

/-- A version that was made of a variable with an entry version is tied to that. -/
theorem tied_of_flowBacks {entries : PathMap Lifetime} {log : List (Path × Lifetime)}
    (h : Runs (log.forM (flowBack entries)) s () s') :
    ∃ graph, s' = s.withGraph graph ∧ s.context.graph.Below graph ∧
      ∀ (q : Path) (entry version : Lifetime), entries[q]? = some entry →
      entry.isNone = false →
        version.isNone = false → (q, version) ∈ log → Tied graph entry version := by
  induction h using runs_forM_rec with
  | nil s => exact ⟨s.context.graph, rfl, Outlives.Below.refl _, by simp⟩
  | cons rebound log hfirst _ ih =>
    unfold flowBack at hfirst
    cases hentry : entries[rebound.1]? with
    | none =>
      simp only [hentry, runs_pure_iff] at hfirst
      obtain ⟨-, rfl⟩ := hfirst
      obtain ⟨graph, rfl, hbelow, htied⟩ := ih
      refine ⟨graph, rfl, hbelow, fun q entry version hq hsome hversion hmem => ?_⟩
      refine htied q entry version hq hsome hversion ((List.mem_cons.1 hmem).resolve_left ?_)
      rintro rfl
      simp [hentry] at hq
    | some first =>
      simp only [hentry, runs_store_iff] at hfirst
      subst hfirst
      obtain ⟨graph, rfl, hbelow, htied⟩ := ih
      refine ⟨graph, rfl, (Outlives.below_store _ _ _ _).trans hbelow, ?_⟩
      intro q entry version hq hsome hversion hmem
      rcases List.mem_cons.1 hmem with rfl | hmem
      · cases hentry.symm.trans hq
        exact Outlives.Near.mono hbelow (Outlives.near_store hversion hsome none)
      · exact htied q entry version hq hsome hversion hmem

theorem runs_exposeAll {paths : List Path} (h : Runs (paths.forM expose) s () s') :
    ∃ exposed, s' = s.withContext { s.context with exposed } ∧
      ∀ path, path ∈ exposed ↔ path ∈ s.context.exposed ∨ path ∈ paths := by
  induction h using runs_forM_rec with
  | nil s => exact ⟨s.context.exposed, rfl, by simp⟩
  | cons first paths hfirst _ ih =>
    obtain rfl := runs_expose_iff.1 hfirst
    obtain ⟨exposed, rfl, hmem⟩ := ih
    refine ⟨exposed, rfl, fun path => (hmem path).trans ?_⟩
    simp only [State.withContext, Std.ExtTreeSet.mem_insert, Std.compare_eq_iff_eq, List.mem_cons]
    grind

/-- The entry into a loop, before its condition: the variables that the loop may change get their
entry versions. -/
def loopEntry (env : Env) (condition body : NodeId) : FlowM (List (Path × Lifetime)) := do
  let effects ← loopEffects env.owner condition body
  effects.addressTaken.forM expose
  let before ← get
  let candidates := before.frame.visible.toList.filter fun (path, extent) =>
    !extent.value.isNone && effects.mayChange before.context path
  candidates.mapM enterLoop

theorem loop_eq {condition body : NodeId} : loop env recur id condition body = (do
    let entries ← loopEntry env condition body
    let start := (← get).context
    let _ ← within Frame.loopBody do
      recur .value condition
      recur .value body
    let after := (← get).context
    (after.rebound.drop start.rebound.length).forM (flowBack (.ofList entries _))
    (after.heapWrites.drop start.heapWrites.length).forM (verify env)
    recordVoid id) := by
  simp only [loop, loopEntry, bind_assoc]

/-- At the entry into a loop the variables with data that it may change get new versions. -/
structure EntersLoop (env : Env) (condition body : NodeId) (effects : LoopEffects)
    (candidates : List Path) (s s₀ s' : State) : Prop where
  reads : loopEffects env.owner condition body = .ok effects
  exposes : ∃ exposed, s₀ = s.withContext { s.context with exposed } ∧
    ∀ path, path ∈ exposed ↔ path ∈ s.context.exposed ∨ path ∈ effects.addressTaken
  covers : ∀ q, q ∈ candidates ↔ ∃ extent, s.frame.lookup? q = some extent ∧
    extent.value.isNone = false ∧ effects.mayChange s₀.context q = true
  renews : RenewsAll (fun _ before => [before.value]) candidates s₀ s'

namespace EntersLoop

variable {condition body : NodeId} {effects : LoopEffects} {candidates : List Path} {s₀ : State}

section

variable (h : EntersLoop env condition body effects candidates s s₀ s')

include h

theorem frame : s₀.frame = s.frame := by
  obtain ⟨exposed, rfl, -⟩ := h.exposes
  rfl

theorem flowAt (node : NodeId) : s'.flowAt node = s.flowAt node := by
  obtain ⟨exposed, rfl, -⟩ := h.exposes
  exact h.renews.flowAt node

theorem grows_exposed : Grows s s₀ := by
  obtain ⟨exposed, rfl, hexposed⟩ := h.exposes
  exact { Grows.refl s with exposed := fun path hpath => (hexposed path).2 (.inl hpath) }

theorem grows : Grows s s' := h.grows_exposed.trans h.renews.grows

theorem lawful {U : Path → Prop} (hs : Lawful U s) : Lawful U s' := by
  obtain ⟨exposed, rfl, -⟩ := h.exposes
  exact h.renews.lawful (hs.of_eq rfl fun _ => rfl)

theorem current {version : Lifetime} (hlogged : Logged s s' q version) :
    q ∈ candidates ∧ ∃ slot, s'.frame.lookup? q = some ⟨version, slot⟩ := by
  obtain ⟨exposed, rfl, -⟩ := h.exposes
  exact h.renews.current hlogged

end

end EntersLoop

theorem runs_loopEntry {condition body : NodeId} {entries : List (Path × Lifetime)}
    (h : Runs (loopEntry env condition body) s entries s') : ∃ effects candidates s₀,
      EntersLoop env condition body effects candidates s s₀ s' ∧
      ∀ q version, (q, version) ∈ entries ↔ Logged s s' q version := by
  simp only [loopEntry, runs_bind_iff, runs_lift_iff, runs_get_iff] at h
  obtain ⟨effects, _, ⟨heffects, rfl⟩, _, s₀, hexposes, _, _, ⟨rfl, rfl⟩, henters⟩ :=
    h
  obtain ⟨exposed, rfl, hexposed⟩ := runs_exposeAll hexposes
  obtain ⟨hrenews, hentries⟩ := renewsAll_enterLoops (Frame.nodup_visible _ _)
    (fun entry hentry => Frame.mem_visible_iff.1 (List.mem_filter.1 hentry).1) henters
  refine ⟨effects, _, _,
    ⟨heffects, ⟨exposed, rfl, hexposed⟩, fun q => ?_, hrenews⟩, hentries⟩
  simp only [List.mem_map, List.mem_filter, Prod.exists, Frame.mem_visible_iff, Bool.and_eq_true,
    Bool.not_eq_true']
  constructor
  · rintro ⟨_, extent, ⟨hlookup, hsome, hchange⟩, rfl⟩
    exact ⟨extent, hlookup, hsome, hchange⟩
  · rintro ⟨extent, hlookup, hsome, hchange⟩
    exact ⟨q, extent, ⟨hlookup, hsome, hchange⟩, rfl⟩

/-- What a loop does; `s₁` is the state at the start of an iteration, `s₂` the state at its
end. -/
structure RunsLoop (env : Env) (recur : Recur) (id condition body : NodeId) (effects : LoopEffects)
    (candidates : List Path) (s s₀ s₁ s₂ s' : State) : Prop where
  enters : EntersLoop env condition body effects candidates s s₀ s₁
  iterates : Runs ([condition, body].forM (recur .value))
    { s₁ with frame := s₁.frame.loopBody } () s₂
  back : ∀ q ∈ candidates, ∀ extent, s₁.frame.lookup? q = some extent →
    extent.value.isNone = false ∧
    ∀ version, Logged s₁ s₂ q version → version.isNone = false →
      Tied s'.context.graph extent.value version
  verified : env.options.checkHeapStores = true →
    ∀ write ∈ s₂.context.heapWrites.drop s₁.context.heapWrites.length,
      write.container.isHeap = true → ∀ root, root ∉ s'.context.graph.rootsOf write.stored
  leaves : Grows s₂ s' ∧ s'.frame = s₁.frame ∧ s'.context.rebound = s₂.context.rebound ∧
    ∃ escaping, s'.flowAt id = some ⟨∅, escaping⟩

theorem runs_loop {condition body : NodeId} (h : Runs (loop env recur id condition body) s () s') :
    ∃ effects candidates s₀ s₁ s₂,
      RunsLoop env recur id condition body effects candidates s s₀ s₁ s₂ s' := by
  rw [loop_eq] at h
  simp only [runs_bind_iff, runs_get_iff, runs_within_iff] at h
  obtain ⟨entries, s₁, hentry, _, _, ⟨rfl, rfl⟩, _, _,
    ⟨s₂, ⟨_, t, hcondition, hbody⟩, -, rfl⟩, _, _,
    ⟨rfl, rfl⟩, _, s₃, hback, _, s₄, hverify, h⟩ := h
  obtain ⟨effects, candidates, s₀, henters, hentries⟩ := runs_loopEntry hentry
  obtain ⟨graph, rfl, hbelow, htied⟩ := tied_of_flowBacks hback
  obtain ⟨rfl, hroots⟩ := runs_verifyAll hverify
  obtain ⟨-, hcontext, hframe, -⟩ := runs_record h
  refine ⟨effects, candidates, s₀, s₁, s₂, henters, ?_, fun q hq extent hlookup => ?_, ?_,
    ?_, hframe, ?_, (recorded_of_runs h).self⟩
  · exact runs_forM_cons_iff.2 ⟨t, hcondition, runs_forM_singleton_iff.2 hbody⟩
  · obtain ⟨before, t, -, hafter, hmade, -⟩ := henters.renews.renewed hq
    obtain ⟨found, hfound⟩ :=
      exists_getElem?_ofList ((hentries q _).2 (hmade.earlier henters.grows_exposed))
    -- The entry that counts is the current version.
    obtain ⟨slot, hcurrent⟩ :=
      (henters.current ((hentries q _).1 (mem_of_getElem?_ofList hfound))).2
    cases hafter.symm.trans hcurrent
    cases hlookup.symm.trans hafter
    rw [hcontext]
    exact ⟨rfl, fun version hlogged hsome => htied q _ version hfound rfl hsome hlogged⟩
  · rw [hcontext]
    exact hroots
  · have hgrows : Grows s₂ ({ s₂ with frame := s₁.frame }.withGraph graph) :=
      { Grows.frame s₂ s₁.frame with graph := hbelow }
    exact hgrows.trans (Grows.of_record h)
  · rw [hcontext]
    rfl

end Regions.Flow
