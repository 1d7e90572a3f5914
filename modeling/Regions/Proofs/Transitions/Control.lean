import Regions.Proofs.Transitions.Rules

/-!
# Blocks, branches and loops as transitions

Scopes that are entered and left again, and the analysis of whole functions.

* `Traces.enclosed`: steps in a scope of their own;
* `Ruling.block`, `Ruling.cond`, `Ruling.loop`: the rules that enter scopes;
* `Ruling.rule`: the rule of any node;
-/

namespace Regions

open Std

variable {frame : Frame} {path : Path} {before : Extent} {positive condition : NodeId}

/-- What a frame takes over from a scope hides nothing. -/
theorem Frame.Absorbs.visible {outer inner : Frame} (h : outer.Absorbs inner frame)
    (hpath : ∃ extent, outer.lookup? path = some extent) :
    ∃ extent, frame.lookup? path = some extent := by
  rw [Frame.lookup?_eq] at hpath ⊢
  rcases h.bindings path with hsame | ⟨extent, -, hsome⟩
  · rwa [hsame, h.enclosing]
  · exact ⟨extent, by rw [hsome, Option.some_or]⟩

namespace Flow

variable {X : Setting} {α β : Type} {p₀ p p' : Progress X} {o s s' : State} {H : Watch}
  {recur : Recur} {position : Position} {id : NodeId} {node : Node}

/-! ## Versions where executions meet -/

theorem runs_entering (h : s.frame.lookup? path = some before) (extent : Extent) :
    ∃ frame, s.frame.rebind path ⟨s.nextVersionOf path, extent.slot⟩ = .ok frame ∧
      Runs (enterLoop (path, extent)) s (path, s.nextVersionOf path)
      (s.entering path extent frame) := by
  obtain ⟨frame, hframe⟩ := Frame.exists_rebind h ⟨s.nextVersionOf path, extent.slot⟩
  refine ⟨frame, hframe, ?_⟩
  simp only [enterLoop, runs_bind_iff, runs_newVersion_iff, runs_store_iff, runs_adopt_iff,
    runs_pure_iff]
  exact ⟨_, _, ⟨rfl, rfl⟩, (), _, rfl, (), _, rfl, (), _,
    ⟨frame, hframe, rfl⟩, rfl, rfl⟩

theorem runs_joining (positive negative : PathMap Extent) (h : s.frame.lookup? path = some before) :
    ∃ frame, s.frame.rebind path ⟨s.nextVersionOf path, before.slot⟩ = .ok frame ∧
      Runs (mergeVariable positive negative path) s ()
      (s.joining path positive negative before frame) := by
  obtain ⟨frame, hframe⟩ := Frame.exists_rebind h ⟨s.nextVersionOf path, before.slot⟩
  refine ⟨frame, hframe, ?_⟩
  simp only [mergeVariable, runs_bind_iff, runs_get_iff, runs_lift_iff, Frame.get_eq_ok_iff,
    runs_newVersion_iff, runs_store_iff, runs_adopt_iff]
  exact ⟨_, _, ⟨rfl, rfl⟩, before, _, ⟨h, rfl⟩, _, _, ⟨rfl, rfl⟩, (), _, rfl, (), _,
    rfl, (), _, rfl, frame, hframe, rfl⟩

/-! ## Scopes -/

/-- The steps run in a scope of their own. What they changed about variables around it was
logged. -/
structure Enclosed (X : Setting) (p : Progress X) (s : State) (enter : Frame → Frame)
    (p' : Progress X) (s₂ : State) : Prop where
  task : p'.task = none
  steps : Steps X p { s with frame := enter s.frame } p' s₂
  logged : ∀ (path : Path) extent, s₂.frame.rebindings[path]? = some extent →
    Logged s s₂ path extent.value
  visible : ∀ path ∈ s₂.frame.rebindings, ∃ extent, s.frame.lookup? path = some extent

theorem Traces.enclosed {enter : Frame → Frame} {steps : FlowM Unit}
    {I : Progress X → State → Prop} (henter : enter = Frame.child ∨ enter = Frame.loopBody)
    (hp : p.task = none) (hI : ∀ p' s', I p' s' → p'.task = none)
    (hinner : Traces p { s with frame := enter s.frame } p steps { s with frame := enter s.frame } H
      fun _ p' s' => I p' s') :
    Traces p₀ o p (within enter steps) s H fun changes p' s' => Steps X p₀ o p s ∧
      ∃ s₂, Enclosed X p s enter p' s₂ ∧ I p' s₂ ∧ changes = s₂.frame.rebindings ∧
        s' = { s₂ with frame := s.frame } := by
  intro hsteps
  have hinner := hinner (.refl _ _)
  cases hrun : steps { s with frame := enter s.frame } with
  | ok u s₂ =>
    rw [hrun] at hinner
    obtain ⟨p', hsteps', hend⟩ := hinner
    have hp' := hI p' s₂ hend
    have hwithin : within enter steps s = .ok s₂.frame.rebindings
        { s₂ with frame := s.frame } :=
      runs_within_iff.2 ⟨s₂, hrun, rfl, rfl⟩
    rw [hwithin]
    have hframes := (hsteps'.reframes (Progress.fresh_of_task_eq_none hp)).2
    exact ⟨p', hsteps.within hp henter hsteps' hp' (.refl _ _), hsteps, s₂,
      ⟨hp', hsteps', fun _ _ => hframes.rebindings henter,
      fun _ => hframes.exists_lookup henter⟩, hend, rfl, rfl⟩
  | error abort s₂ =>
    rw [hrun] at hinner
    have hwithin : Aborts (within enter steps) s abort s₂ := by
      simp only [within, aborts_bind_iff, not_aborts_get, not_aborts_modify, runs_get_iff,
        runs_modify_iff, false_or]
      exact ⟨s, s, ⟨rfl, rfl⟩, (), _, rfl, .inl hrun⟩
    rw [show within enter steps s = .error abort s₂ from hwithin]
    obtain ⟨p', hinside, hstops⟩ := hinner
    exact ⟨p', .inner hsteps hp henter hinside, hstops.embed fun _ _ => .inner hsteps hp henter⟩

/-- The frame around a scope takes over its changes, one after the other. -/
theorem Traces.absorb {enter : Frame → Frame} {s₂ : State}
    (henter : enter = Frame.child ∨ enter = Frame.loopBody) (hp : p.task = none)
    (hsteps : Steps X p₀ o p s) (h : Enclosed X p s enter p' s₂) :
    Traces p₀ o p' (s₂.frame.rebindings.toList.forM fun entry => rebind entry.1 entry.2)
      { s₂ with frame := s.frame } H fun _ p₁ s₁ =>
      p₁.task = none ∧ ∀ id, s₁.flowAt id = s₂.flowAt id := by
  refine
    (Traces.forM (fun _ p₁ s₁ => p₁ = p' ∧ ∃ frame, s.frame.Absorbs s₂.frame frame ∧
    s₁ = { s₂ with frame }) ⟨rfl, _, .refl _ _,
    rfl⟩ fun before entry after hsplit p₁ s₁ hI => ?_).weaken ?_
  · obtain ⟨rfl, frame, habsorbs, rfl⟩ := hI
    have hentry : s₂.frame.rebindings[entry.1]? = some entry.2 :=
      ExtTreeMap.mem_toList_iff_getElem?_eq_some.1 (by simp [hsplit])
    have hmem : entry.1 ∈ s₂.frame.rebindings :=
      ExtTreeMap.mem_iff_isSome_getElem?.2 (by simp [hentry])
    obtain ⟨found, hfound⟩ := habsorbs.visible (h.visible entry.1 hmem)
    obtain ⟨after, hrebind⟩ := Frame.exists_rebind hfound entry.2
    have hrun : Runs (rebind entry.1 entry.2) { s₂ with frame } () { s₂ with frame := after } :=
      runs_rebind_iff.2 ⟨after, hrebind, rfl⟩
    intro _
    rw [show rebind entry.1 entry.2 { s₂ with frame } = .ok ()
      { s₂ with frame := after } from hrun]
    have habsorbs := habsorbs.rebind hentry hrebind
    exact ⟨p₁, hsteps.within hp henter h.steps h.task habsorbs, rfl, after, habsorbs, rfl⟩
  · rintro _ _ _ ⟨rfl, frame, -, rfl⟩
    exact ⟨h.task, fun _ => rfl⟩

namespace Ruling

theorem recordVoid (h : Ruling X H recur position id node) (hserved : Served X position id node p s)
    (hresult : Result X.env s id node.ty position node.expr ∅)
    (hescapes : Escapes X.env s node.ty position node.expr ∅)
    (hnew : ∀ value, node.expr ≠ .new (some value) := by rintro _ ⟨⟩) :
    Traces p₀ o p (recordVoid id) s H (Ended X id node) :=
  h.record hserved hresult hescapes hnew

theorem block (h : Ruling X H recur .value id node) (hv : Visiting X H .value id node s [] p s)
    {statements : List NodeId} (hexpr : node.expr = .block statements) :
    Traces p₀ o p (block X.env recur id statements) s H (Ended X id node) := by
  obtain ⟨_, ty, _⟩ := node
  cases hexpr
  have hinner : Visiting X H .value id _ s [] p { s with frame := s.frame.child } :=
    hv.reframe (fun _ hpath => by simpa using hpath) (fun hin => hin) fun _ => rfl
  refine .bind (.enclosed (.inl rfl) hv.task (fun _ _ hend => hend.task) (h.visitAll hinner rfl)) ?_
  rintro _ p₁ _ ⟨hsteps, s₂, henclosed, hv₂, rfl, rfl⟩
  refine .bind (.absorb (.inl rfl) hv.task hsteps henclosed) ?_
  rintro _ p₃ s₃ ⟨hp₃, hsame⟩
  have hserved : Served X .value id _ p₃ s₃ :=
    ⟨⟨hp₃, fun hacyclic => (hsame id).trans (hv₂.fresh hacyclic)⟩, fun use huse =>
      hsame use.2 ▸ hv₂.onward.done use huse⟩
  split
  · rename_i last hlast
    refine h.typeThen ?_
    split
    · rename_i hvoid
      refine h.recordVoid hserved (.inl ⟨.inl hvoid, rfl⟩) fun hty => ?_
      simp [hvoid] at hty
    · rename_i hvoid
      have hdone : s₃.flowAt last ≠ none := hserved.operands (.value, last)
        (List.mem_map_of_mem (List.mem_of_getLast? hlast))
      refine .bundleThen hdone fun flow hflow => .escapingThen hdone fun held hheld =>
        h.record hserved
        (.inr ⟨(Bool.not_eq_true _).mp hvoid, last, flow, hlast, hflow, rfl⟩)
          fun _ other hother => ?_
      cases hlast.symm.trans hother
      exact ⟨held, hheld, fun _ hx => hx⟩
  · rename_i hlast
    refine h.recordVoid hserved (.inl ⟨.inr (List.getLast?_eq_none_iff.1 hlast), rfl⟩)
      fun _ last hlast' => ?_
    cases hlast.symm.trans hlast'

/-! ## Branches -/

/-- What the branches have changed is logged. -/
def Changes (o : State) (changes : PathMap Extent) (s : State) : Prop :=
  ∀ (path : Path) extent, changes[path]? = some extent → Logged o s path extent.value

theorem Changes.later {changes : PathMap Extent} (h : Changes o changes s) (hgrows : Grows s s') :
    Changes o changes s' :=
  fun path extent hextent => (h path extent hextent).later hgrows

theorem mergeBranches {positive negative : PathMap Extent} (hidle : Idle X id p s)
    (hpositive : Changes o positive s) (hnegative : Changes o negative s)
    (hvisible : ∀ path, path ∈ positive ∨ path ∈ negative →
      ∃ extent, s.frame.lookup? path = some extent) :
    Traces p₀ o p (mergeBranches positive negative) s H
      fun _ p' s' => Idle X id p' s' ∧ ∀ id, s'.flowAt id = s.flowAt id := by
  refine (Traces.forM (fun _ p' s' => Idle X id p' s' ∧ (∀ id, s'.flowAt id = s.flowAt id) ∧
    Changes o positive s' ∧ Changes o negative s' ∧
    s.frame.VisibleIn s'.frame)
    ⟨hidle, fun _ => rfl, hpositive, hnegative, fun _ hpath => hpath⟩
    fun before path after hsplit p₁ s₁ hI => ?_).weaken fun _ _ _ hI => ⟨hI.1, hI.2.1⟩
  obtain ⟨hidle, hsame, hpositive, hnegative, hkept⟩ := hI
  have hchanged : path ∈ positive ∨ path ∈ negative := by
    have hkey : path ∈ (positive ∪ negative).keys := by simp [hsplit]
    rwa [ExtTreeMap.mem_keys, ExtTreeMap.mem_union_iff] at hkey
  obtain ⟨found, hfound⟩ := hkept path (hvisible path hchanged)
  obtain ⟨frame, hframe, hrun⟩ := runs_joining positive negative hfound
  have hjoining : Joining o s₁ path positive negative found frame :=
    ⟨hchanged, hpositive path, hnegative path, hfound, hframe⟩
  intro hsteps
  rw [show mergeVariable positive negative path s₁ = .ok () _ from hrun]
  exact ⟨_, hsteps.merged hidle.task hjoining, ⟨rfl, hidle.fresh⟩, hsame,
    hpositive.later hjoining.grows, hnegative.later hjoining.grows, fun other hother =>
    Frame.visible_rebind hframe other (hkept other hother)⟩

/-- The data of a branch is stored in a member of the joined value, if the branch has any. -/
theorem storeBranch {task : Task X} {joins : List Lifetime} (hposition : task.position = .value)
    {negative branch : NodeId} (hexpr : task.node.expr = .cond condition positive (some negative))
    (hbranch : branch = positive ∨ branch = negative) {flow : NodeFlow}
    (hflow : s.flowAt branch = some flow) (hvoid : task.node.ty.isVoid = false)
    {fields : List Field} (hfields : X.env.fields task.node.ty = .ok fields) {field : Field}
    (hfield : field ∈ fields) (htracked : field.tracked = true) {next : FlowM β}
    {R : β → Progress X → State → Prop}
    (hnext : ∀ s', Augments s s' → Traces p₀ o ⟨some task, joins⟩ next s' H R) :
    Traces p₀ o ⟨some task, joins⟩ (do
      if let some extent := flow.bundle[field.path]? then
        store extent.value (X.env.joinedAt task.id field) field.ty
      next) s H R := by
  split
  · rename_i extent hextent
    exact .storeThen (.joined hposition hexpr hbranch hflow hextent hvoid hfields hfield htracked)
      (hnext _ (.store _ _ _ _))
  · exact hnext s (.refl s)

theorem joinBranches (h : Ruling X H recur .value id node) (hserved : Served X .value id node p s)
    {negative : NodeId} (hexpr : node.expr = .cond condition positive (some negative))
    (hvoid : node.ty.isVoid = false) :
    Traces p₀ o p (joinBranches X.env id positive negative node.ty) s H (Ended X id node) := by
  obtain ⟨_, ty, _⟩ := node
  cases hexpr
  have hdone := hserved.operands (.value, positive) (by simp [Expr.uses, Expr.children])
  have hdone' := hserved.operands (.value, negative) (by simp [Expr.uses, Expr.children])
  refine .liftThen (fun _ hfault => h.asks (.fields hfault)) fun fields hfields => .bundleThen hdone
    fun positiveFlow hpositive => .bundleThen hdone' fun negativeFlow hnegative =>
      h.begin hserved ?_
  refine .bind (.mapM (fun before entries p' s' => p' = ⟨some (h.task [] s.context),
    p.joins⟩ ∧ Augments s s' ∧ entries = before.map fun field => (field.path,
      if field.tracked then .ofValue (X.env.joinedAt id field) else .untracked))
    ⟨rfl, .refl s, rfl⟩ fun before field after hsplit entries p₁ s₁ hI => ?_) ?_
  · obtain ⟨rfl, haugments, rfl⟩ := hI
    unfold joinMember
    split
    · rename_i htracked
      have hfield : field ∈ fields := by simp [hsplit]
      refine storeBranch rfl rfl (.inl rfl) ((haugments.flowAt _).trans hpositive) hvoid hfields
        hfield htracked fun s₂ haugments₂ => ?_
      refine storeBranch rfl rfl (.inr rfl)
        ((haugments₂.flowAt _).trans ((haugments.flowAt _).trans hnegative))
        hvoid hfields hfield htracked fun s₃ haugments₃ => ?_
      refine .pure ⟨rfl, haugments.trans (haugments₂.trans haugments₃), ?_⟩
      simp [htracked, Env.joinedAt]
    · rename_i htracked
      exact .pure ⟨rfl, haugments, by simp [htracked]⟩
  · rintro _ _ s₁ ⟨rfl, haugments, rfl⟩
    have hfresh : X.Acyclic → s₁.flowAt id = none := fun hacyclic =>
      (haugments.flowAt id).trans (hserved.fresh hacyclic)
    refine .liftThen (fun _ hfault => h.asks (.tracked hfault)) fun tracked htracked => ?_
    split
    · exact .escapingThen (haugments.flowAt _ ▸ hdone) fun held hheld =>
        .escapingThen (haugments.flowAt _ ▸ hdone') fun held' hheld' =>
          .record hfresh (.inr ⟨hvoid, fields, hfields, rfl⟩) fun _ _ =>
            ⟨⟨held, hheld, fun x hx => ExtTreeSet.mem_union_iff.2 (.inl hx)⟩,
              held', hheld', fun x hx => ExtTreeSet.mem_union_iff.2 (.inr hx)⟩
    · rename_i hplain
      refine .record hfresh (.inr ⟨hvoid, fields, hfields, rfl⟩) fun _ htracked' => ?_
      cases htracked.symm.trans htracked'
      exact absurd rfl hplain

theorem cond (h : Ruling X H recur .value id node) (hv : Visiting X H .value id node s [] p s)
    {negative? : Option NodeId} (hexpr : node.expr = .cond condition positive negative?) :
    Traces p₀ o p (cond X.env recur id condition positive negative?) s H (Ended X id node) := by
  obtain ⟨_, ty, span⟩ := node
  cases hexpr
  have hblock : ∀ statements, Expr.cond condition positive negative? ≠ .block
    statements := by simp
  refine .bind (h.visit hv rfl) fun _ p₁ s₁ hvisit => ?_
  have hv₁ := hvisit.1
  have hinner : Visiting X H .value id _ s [(.value, condition)] p₁
      { s₁ with frame := s₁.frame.child } :=
    hv₁.reframe (fun _ hpath => by simpa using hpath) (fun hin => hin) fun _ => rfl
  refine .bind
    (.enclosed (.inl rfl) hv₁.task (fun _ _ hend => hend.1.task) (h.visit hinner rfl)) ?_
  rintro _ p₂ _ ⟨hsteps₁, s₂, henclosed, ⟨hend, -⟩, rfl, rfl⟩
  have hv₂ := hv₁.leave hend hblock
  have hpositive : Changes o s₂.frame.rebindings { s₂ with frame := s₁.frame } :=
      fun path extent hextent =>
    (henclosed.logged path extent hextent).earlier hsteps₁.grows
  cases negative? with
  | none =>
    simp only [pure_bind]
    refine .bind
      (mergeBranches hv₂.toIdle hpositive (fun path extent hextent => ?_) fun path hpath => ?_)
      fun _ p₃ s₃ hI => ?_
    · simp at hextent
    · exact henclosed.visible path (hpath.resolve_right (by simp))
    · exact h.typeThen
        (h.recordVoid ⟨hI.1, fun use huse => hI.2 use.2 ▸ hv₂.onward.done use huse⟩
        (.inl ⟨.inr rfl, rfl⟩) trivial)
  | some negative =>
    have hinner₂ : Visiting X H .value id _ s [(.value, condition), (.value, positive)] p₂
        { s₂ with frame := s₁.frame.child } :=
      hv₂.reframe (fun _ hpath => by simpa using hpath) (fun hin => hin) fun _ => rfl
    refine .bind
      (.enclosed (.inl rfl) hv₂.task (fun _ _ hend => hend.1.task) (h.visit hinner₂ rfl)) ?_
    rintro _ p₃ _ ⟨hsteps₂, s₃, henclosed₂, ⟨hend₂, -⟩, rfl, rfl⟩
    have hv₃ := hv₂.leave hend₂ hblock
    have hgrows : Grows { s₂ with frame := s₁.frame } { s₃ with frame := s₁.frame } :=
      (Grows.frame _ _).trans (henclosed₂.steps.grows.trans (Grows.frame _ _))
    refine .bind
      (mergeBranches hv₃.toIdle (hpositive.later hgrows) (fun path extent hextent => ?_)
      fun path hpath => ?_) fun _ p₄ s₄ hI => ?_
    · exact (henclosed₂.logged path extent hextent).earlier hsteps₂.grows
    · exact hpath.elim (henclosed.visible path) (henclosed₂.visible path)
    · have hserved : Served X .value id
          ⟨.cond condition positive (some negative), ty, span⟩ p₄ s₄ :=
        ⟨hI.1, fun use huse => hI.2 use.2 ▸ hv₃.onward.done use huse⟩
      refine h.typeThen ?_
      dsimp only
      split
      · rename_i hty
        refine h.recordVoid hserved (.inl ⟨.inl hty, rfl⟩) fun hvalue => ?_
        simp [hty] at hvalue
      · rename_i hty
        exact h.joinBranches hserved rfl ((Bool.not_eq_true _).mp hty)

/-! ## Loops -/

/-- The versions at the start of a loop, each with its path, were made by joins since `o`. -/
def Entries (entries : List (Path × Lifetime)) (o : State) (p : Progress X) (s : State) : Prop :=
  ∀ entry ∈ entries, entry.2 ∈ p.joins ∧ entry.2.path = entry.1 ∧ Entered o s entry.2

theorem Entries.later {entries : List (Path × Lifetime)} (h : Entries entries o p s)
    (hgrows : Grows s s') (hjoins : p.joins ⊆ p'.joins) : Entries entries o p' s' := by
  intro entry hentry
  obtain ⟨hjoin, hpath, hlogged, hversion⟩ := h entry hentry
  exact ⟨hjoins hjoin, hpath, hlogged.later hgrows, hversion⟩

theorem enterLoops (hvisited : X.visits .value id) (hnode : X.env.node id = .ok node)
    {body : NodeId} (hexpr : node.expr = .loop condition body) {effects : LoopEffects}
    (heffects : loopEffects X.env.owner condition body = .ok effects)
    {candidates : List (Path × Extent)} (hnodup : (candidates.map Prod.fst).Nodup)
    (hcandidates : ∀ entry ∈ candidates, s.frame.lookup? entry.1 = some entry.2 ∧
      entry.2.value.isNone = false ∧ effects.mayChange s.context entry.1 = true)
    (hidle : Idle X id p s) :
    Traces p₀ o p (candidates.mapM enterLoop) s H fun entries p' s' => Idle X id p' s' ∧
      Entries entries o p' s' ∧ (∀ id, s'.flowAt id = s.flowAt id) ∧
      s.frame.VisibleIn s'.frame ∧ s'.context.heapWrites = s.context.heapWrites := by
  refine (Traces.mapM (fun before entries p' s' => Idle X id p' s' ∧ Entries entries o p' s' ∧
    ((∀ id, s'.flowAt id = s.flowAt id) ∧ s.frame.VisibleIn s'.frame ∧
      s'.context.heapWrites = s.context.heapWrites) ∧
    s'.context.exposed = s.context.exposed ∧
    ∀ path, path ∉ before.map Prod.fst → s'.frame.lookup? path = s.frame.lookup? path)
    ⟨hidle, by simp [Entries], ⟨fun _ => rfl, fun _ hpath => hpath, rfl⟩, rfl,
      fun _ _ => rfl⟩
    fun before entry after hsplit entries p₁ s₁ hI => ?_).weaken fun _ _ _ hI =>
      ⟨hI.1, hI.2.1, hI.2.2.1⟩
  obtain ⟨hidle, hentries, ⟨hsame, hkept, hwrites⟩, hexposed, hlookup⟩ := hI
  obtain ⟨hvisible, hsome, hchange⟩ := hcandidates entry (by simp [hsplit])
  -- No path is entered twice, so that this one still has the extent from before the loop.
  have hnew : entry.1 ∉ before.map Prod.fst := by
    intro hmem
    rw [hsplit, List.map_append, List.map_cons] at hnodup
    exact (List.nodup_append.1 hnodup).2.2 _ hmem _ (by simp) rfl
  rw [← hlookup _ hnew] at hvisible
  obtain ⟨frame, hframe, hrun⟩ := runs_entering hvisible entry.2
  intro hsteps
  rw [show enterLoop entry s₁ = .ok (entry.1, s₁.nextVersionOf entry.1) _ from hrun]
  have hp₁ : p₁ = ⟨none, p₁.joins⟩ := by rw [← hidle.task]
  have hchange : effects.mayChange s₁.context entry.1 = true := by
    simpa [LoopEffects.mayChange, Context.isExposed, hexposed] using hchange
  have hstep : Step X p₁ s₁ ⟨none, p₁.joins ++ [s₁.nextVersionOf entry.1]⟩
      (s₁.entering entry.1 entry.2 frame) := by
    rw [hp₁]
    exact .entered hvisited hnode hexpr heffects hvisible hsome hchange hframe
  have hgrows := hstep.grows
  refine ⟨_, hsteps.step hstep, ⟨rfl, hidle.fresh⟩, fun other hother => ?_,
    ⟨hsame, fun path hpath => Frame.visible_rebind hframe path (hkept path hpath), hwrites⟩,
    hexposed, fun path hpath => ?_⟩
  · rcases List.mem_append.1 hother with hold | hnew
    · exact hentries.later hgrows (List.subset_append_left _ _) other hold
    · obtain rfl := List.mem_singleton.1 hnew
      exact ⟨by simp, rfl, (logged_adopted _ _ _ _).earlier hsteps.grows,
        hsteps.grows.nextVersion⟩
  · simp only [List.map_append, List.mem_append, not_or, List.map_cons, List.map_nil,
      List.mem_singleton] at hpath
    exact (Frame.lookup?_rebind hframe path).trans (by simp [hpath.2, hlookup path hpath.1])

theorem exists_flowsBack {entries log : List (Path × Lifetime)} {s₁ : State}
    (hentries : Entries entries o p s₁)
    (hlog : ∀ rebound ∈ log, Logged o s₁ rebound.1 rebound.2)
    (hback : FlowsBack p o s s₁) :
    ∃ s', Runs (log.forM (flowBack (.ofList entries compare))) s₁ () s' ∧
      FlowsBack p o s s' := by
  induction log generalizing s₁ with
  | nil => exact ⟨s₁, runs_forM_nil_iff.2 rfl, hback⟩
  | cons rebound log ih =>
    cases hentry : (Std.ExtTreeMap.ofList entries compare)[rebound.1]? with
    | none =>
      obtain ⟨s', hrun, hback⟩ :=
        ih hentries (fun other hother => hlog other (List.mem_cons_of_mem _ hother)) hback
      exact ⟨s', runs_forM_cons_iff.2 ⟨s₁, by simp [flowBack, hentry], hrun⟩, hback⟩
    | some entry =>
      obtain ⟨hjoin, hpath, hentered⟩ := hentries _ (mem_of_getElem?_ofList hentry)
      have hversion := hlog rebound List.mem_cons_self
      have hgrows := grows_store (s := s₁) rebound.2 entry none
      dsimp only at hpath
      obtain ⟨s', hrun, hback⟩ := ih (hentries.later hgrows (List.Subset.refl _))
        (fun other hother => (hlog other (List.mem_cons_of_mem _ hother)).later hgrows)
        (hback.next none hjoin hentered (hpath ▸ hversion))
      exact ⟨s', runs_forM_cons_iff.2 ⟨_, by simp [flowBack, hentry, runs_store_iff], hrun⟩,
        hback⟩

/-- A loop ends where versions have flown back, and no write to the heap is a violation. -/
theorem closeLoop {entries log : List (Path × Lifetime)} (htask : p.task = none)
    (hidle : Idle X id p' s') (hentries : Entries entries s p' s')
    (hlog : ∀ rebound ∈ log, Logged s s' rebound.1 rebound.2) : Traces p s p' (do
      log.forM (flowBack (.ofList entries compare))
      (s'.context.heapWrites.drop s.context.heapWrites.length).forM (verify X.env)) s' H
      fun _ p₁ s₁ => Idle X id p₁ s₁ ∧ ∀ id, s₁.flowAt id = s'.flowAt id := by
  intro hsteps
  obtain ⟨s₁, hrun, hback⟩ := exists_flowsBack hentries hlog (.refl (s := s'))
  obtain ⟨graph, rfl⟩ := hback.exists_graph
  have hverify : Traces p' (s'.withGraph graph) p'
      ((s'.context.heapWrites.drop s.context.heapWrites.length).forM (verify X.env))
      (s'.withGraph graph) H fun _ p₁ s₁ => p' = p₁ ∧ s'.withGraph graph = s₁ := by
    refine .forM (fun _ p₁ s₁ => p' = p₁ ∧ s'.withGraph graph = s₁) ⟨rfl, rfl⟩ ?_
    rintro _ _ _ _ _ _ ⟨rfl, rfl⟩
    exact .verify ⟨rfl, rfl⟩
  have hverify := hverify (.refl _ _)
  have hrun : log.forM (flowBack (.ofList entries compare)) s' = .ok () (s'.withGraph graph) := hrun
  simp only [bind, EStateM.bind, hrun]
  -- The loop has ended if all writes pass. A violation is found inside it, at the state reached.
  cases hchecked : (s'.context.heapWrites.drop s.context.heapWrites.length).forM (verify X.env)
      (s'.withGraph graph) with
  | ok u s₁ =>
    rw [hchecked] at hverify
    obtain ⟨_, -, rfl, rfl⟩ := hverify
    exact ⟨p', (Steps.refl p s).looped htask hsteps hidle.task hback (runs_verifyAll hchecked).2,
      hidle.of_flowAt rfl, fun _ => rfl⟩
  | error abort s₁ =>
    rw [hchecked] at hverify
    obtain ⟨p₁, hinside, hstops⟩ := hverify
    exact ⟨p₁, .back (.refl p s) hsteps hidle.task hback hinside,
      hstops.embed fun _ _ => .back (.refl p s) hsteps hidle.task hback⟩

theorem loop (h : Ruling X H recur .value id node) (hidle : Idle X id p s)
    (harrives : H.arrives .value id s) {body : NodeId} (hexpr : node.expr = .loop condition body) :
    Traces p s p (loop X.env recur id condition body) s H (Ended X id node) := by
  obtain ⟨_, ty, span⟩ := node
  cases hexpr
  have htask := hidle.task
  refine .liftThen (fun _ hfault => h.asks (.effects rfl hfault)) fun effects heffects => ?_
  refine .bind
    (.forM (fun _ p' s' => Idle X id p' s' ∧ s'.frame = s.frame ∧ s'.recorded = s.recorded ∧
      s'.context.heapWrites = s.context.heapWrites)
    ⟨hidle, rfl, rfl, rfl⟩ fun before path after hsplit p₁ s₁ hI =>
      ?_) fun _ p₁ s₁ hI => .getThen ?_
  · have hp₁ : p₁ = ⟨none, p₁.joins⟩ := by rw [← hI.1.task]
    rw [hp₁]
    exact .of_step (a := ()) (runs_expose_iff.2 rfl)
      (.expose (.loop h.visited h.found rfl heffects (by simp [hsplit])))
        ⟨⟨rfl, hI.1.fresh⟩, hI.2⟩
  obtain ⟨hidle, hframe, hrecorded, hwrites⟩ := hI
  refine .bind (enterLoops h.visited h.found rfl heffects (Frame.nodup_visible _ _)
    (fun entry hentry => ?_) hidle) fun entries p₂ s₂ hI => .getThen ?_
  · obtain ⟨hmem, hkept⟩ := List.mem_filter.1 hentry
    simp only [Bool.and_eq_true, Bool.not_eq_true'] at hkept
    exact ⟨Frame.mem_visible_iff.1 hmem, hkept.1, hkept.2⟩
  obtain ⟨hidle, hentries, hsame, hkept, hwrites₂⟩ := hI
  have hflow : ∀ other, s₂.flowAt other = s.flowAt other := fun other => by
    rw [hsame, State.flowAt, hrecorded, State.flowAt]
  -- Inside, the loop can be left, and everything around it is visible.
  have hinner : Visiting X H .value id ⟨.loop condition body, ty, span⟩ s [] p₂
    { s₂ with frame := s₂.frame.loopBody } := {
    toIdle := hidle.of_flowAt rfl
    arrives := harrives
    onward := {
      visible := fun path hpath => by simpa using hkept path (hframe ▸ hpath)
      inLoop := fun _ => rfl
      looping := fun _ _ _ => rfl
      recorded := fun _ _ _ other _ => hflow other
      done := by simp
      shows := by simp } }
  refine .bind
    (.enclosed (I := Visiting X H .value id _ s [(.value, condition), (.value, body)]) (.inr rfl)
    hidle.task (fun _ _ hend => hend.task) (.bind (h.visit hinner rfl) fun _ p₃ s₃ hvisit =>
      (h.visit hvisit.1 rfl).weaken fun _ _ _ hvisit => hvisit.1)) ?_
  rintro _ p₃ _ ⟨hsteps, s₃, henclosed, hend, rfl, rfl⟩
  have hidle₃ : Idle X id p₃ { s₃ with frame := s₂.frame } := hend.toIdle.of_flowAt rfl
  have hgrows : Grows s₂ { s₃ with frame := s₂.frame } :=
    (Grows.frame _ _).trans (henclosed.steps.grows.trans (Grows.frame _ _))
  have hentries₃ : Entries entries s p₃ { s₃ with frame := s₂.frame } :=
    hentries.later hgrows henclosed.steps.joins
  have hlog : ∀ rebound ∈ s₃.context.rebound.drop s₂.context.rebound.length,
      Logged s { s₃ with frame := s₂.frame } rebound.1 rebound.2 := fun rebound hrebound =>
    Logged.earlier
      (show Logged s₂ { s₃ with frame := s₂.frame } rebound.1 rebound.2 from hrebound)
      hsteps.grows
  refine .getThen ?_
  rw [← bind_assoc, hwrites₂.trans hwrites]
  refine .bind (closeLoop htask hidle₃ hentries₃ hlog) fun _ p₄ s₄ hI => ?_
  exact h.recordVoid
    ⟨hI.1, fun use huse => hI.2 use.2 ▸ hend.onward.done use huse⟩ rfl trivial

theorem leaveIteration (h : Ruling X H recur .value id node)
    (hv : Visiting X H .value id node s [] p s)
    (hexpr : node.expr = .breakLoop ∨ node.expr = .continueLoop) :
    Traces p₀ o p (leaveIteration X.env id) s H (Ended X id node) := by
  refine .getThen ?_
  by_cases hloop : s.frame.inLoop = true
  · rw [if_pos hloop]
    obtain ⟨_, ty, _⟩ := node
    rcases hexpr with hexpr | hexpr <;>
    · cases hexpr
      exact h.recordVoid (hv.served rfl) rfl trivial
  · rw [if_neg hloop]
    refine .runsThen (runs_lift_iff.2 ⟨h.found, rfl⟩) (.faultThen ?_)
    exact .outside (h.task [] s.context) hexpr hv.arrives ((Bool.not_eq_true _).mp hloop)

/-! ## Any node -/

theorem rule (h : Ruling X H recur position id node) (hidle : Idle X id p s)
    (harrives : H.arrives position id s) :
    Traces p₀ o p (rule X.env recur position id node.expr) s H (Ended X id node) := by
  have hstart : (∀ condition body, node.expr ≠ .loop condition body) →
      Visiting X H position id node s [] p s :=
    Visiting.start hidle harrives
  obtain ⟨expr, ty, span⟩ := node
  cases position with
  | value =>
    cases expr with
    | literal =>
      exact h.operator (hstart nofun) [] rfl (fun _ _ hbundle => hbundle) fun _ => trivial
    | unary op operand =>
      exact h.operator (hstart nofun) [operand] rfl (fun _ _ hbundle => hbundle) fun _ => trivial
    | binary op lhs rhs =>
      exact h.operator (hstart nofun) [lhs, rhs] rfl (fun _ _ hbundle => hbundle) fun _ => trivial
    | var => exact h.readVariable (hstart nofun) rfl
    | addressOf => exact h.addressOf (hstart nofun) rfl
    | dereference => exact h.dereference (hstart nofun) rfl
    | memberAccess => exact h.readMember (hstart nofun) rfl
    | index => exact h.index (hstart nofun) rfl
    | new => exact h.allocate (hstart nofun) rfl
    | structLiteral => exact h.structLiteral (hstart nofun) rfl
    | call => exact h.call (hstart nofun) rfl
    | block => exact h.block (hstart nofun) rfl
    | declaration => exact h.declareVariable (hstart nofun) rfl
    | assignment => exact h.assign (hstart nofun) rfl
    | cond => exact h.cond (hstart nofun) rfl
    | loop => exact (h.loop hidle harrives rfl).embed
    | breakLoop => exact h.leaveIteration (hstart nofun) (.inl rfl)
    | continueLoop => exact h.leaveIteration (hstart nofun) (.inr rfl)
  | place =>
    cases expr with
    | var => exact h.nameVariable (hstart nofun) rfl
    | dereference => exact h.dereference (hstart nofun) rfl
    | memberAccess => exact h.nameMember (hstart nofun) rfl
    | index => exact h.index (hstart nofun) rfl
    | _ => exact .fault (.place (h.task [] s.context) rfl rfl)

end Ruling
end Flow
end Regions
