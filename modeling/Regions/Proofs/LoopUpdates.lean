import Regions.Proofs.Exposure
import Regions.Proofs.Joins
import Regions.Proofs.Resumption
import Regions.Proofs.Trees

/-!
# Updates in loops

The body of a loop is analysed once, in a frame that is thrown away. What it does to the variables
around it is not lost: every value that such a variable has at a point of the body leads back to the
one that it has after the loop.

* `LoopEffects.Touches`: the text of a loop shows that it may change a variable;
* `Confines`: only such variables have changed, and only exposed storage is exposed anew;
* `Looping.lasts_confines`: so it is as long as the loop is analysed;
* `tied_of_runs_loop`: what a variable is bound to after the loop knows the versions that it had;
* `tied_of_loop`: no update is lost.
-/

namespace Regions.Flow

variable {env : Env} {function : Function} {base : Nat} {id condition body other : NodeId}
  {node : Node} {effects inner : LoopEffects} {before s s' : State} {path : Path} {extent : Extent}

/-! ## What a loop can change -/

/-- The loop may change the variable at the path: it assigns to it, or the storage around it is
exposed, before the loop or in it. -/
def LoopEffects.Touches (effects : LoopEffects) (context : Context) (path : Path) : Prop :=
  (∃ above ∈ path.ancestry, above ∈ context.exposed ∨ above ∈ effects.addressTaken) ∨
    ∃ base ∈ effects.assigned, path.startsWith base = true

theorem touches_of_mayChange (h : inner.mayChange s.context path = true)
    (hexposed : ∀ above ∈ s.context.exposed, above ∈ before.context.exposed ∨
      above ∈ effects.addressTaken)
    (hassigned : ∀ base ∈ inner.assigned, base ∈ effects.assigned) :
    effects.Touches before.context path := by
  simp only [LoopEffects.mayChange, Context.isExposed, Bool.or_eq_true, List.any_eq_true] at h
  rcases h with ⟨above, habove, hmem⟩ | ⟨base, hbase, hstarts⟩
  · exact .inl ⟨above, habove, hexposed above (Std.ExtTreeSet.contains_iff_mem.1 hmem)⟩
  · exact .inr ⟨base, hassigned base hbase, hstarts⟩

theorem mayChange_of_touches {context context' : Context} (h : effects.Touches context path)
    (hexposed : ∀ above, above ∈ context.exposed ∨ above ∈ effects.addressTaken →
      above ∈ context'.exposed) :
    effects.mayChange context' path = true := by
  simp only [LoopEffects.mayChange, Context.isExposed, Bool.or_eq_true, List.any_eq_true]
  rcases h with ⟨above, habove, hmem⟩ | hassigned
  · exact .inl ⟨above, habove, Std.ExtTreeSet.contains_iff_mem.2 (hexposed above hmem)⟩
  · exact .inr hassigned

theorem mem_ancestry_self (h : path.segments ≠ []) : path ∈ path.ancestry := by
  have hlength : 0 < path.segments.length := List.length_pos_iff.2 h
  refine List.mem_map.2 ⟨path.segments.length - 1, List.mem_range.2 (by omega), ?_⟩
  rw [Nat.sub_add_cancel hlength, List.take_length]

/-- Since the state `before` the loop, only what its text shows has changed. -/
structure Confines (effects : LoopEffects) (before s : State) : Prop where
  start : before.context.rebound.length ≤ s.context.rebound.length
  exposed : ∀ path ∈ s.context.exposed, path ∈ before.context.exposed ∨
    path ∈ effects.addressTaken
  changed : ∀ entry ∈ s.context.rebound.drop before.context.rebound.length,
    entry.2.isNone = false ∧ effects.Touches before.context entry.1

namespace Confines

theorem refl (effects : LoopEffects) (s : State) : Confines effects s s where
  start := Nat.le_refl _
  exposed _ h := .inl h
  changed := by simp

theorem of_eq (h : Confines effects before s) (hexposed : s'.context.exposed = s.context.exposed)
    (hrebound : s'.context.rebound = s.context.rebound) : Confines effects before s' where
  start := hrebound ▸ h.start
  exposed := hexposed ▸ h.exposed
  changed := hrebound ▸ h.changed

theorem expose (h : Confines effects before s)
    (hpath : path ∈ before.context.exposed ∨ path ∈ effects.addressTaken) :
    Confines effects before
    (s.withContext { s.context with exposed := s.context.exposed.insert path }) where
  start := h.start
  exposed other hother := by
    rcases Std.ExtTreeSet.mem_insert.1 hother with heq | hother
    · exact Std.compare_eq_iff_eq.1 heq ▸ hpath
    · exact h.exposed other hother
  changed := h.changed

theorem adopted (h : Confines effects before s) (hpath : effects.Touches before.context path)
    (graph : Outlives) (frame : Frame) : Confines effects before (s.adopted path graph frame) where
  start := Nat.le_trans h.start (by simp [State.adopted])
  exposed := h.exposed
  changed entry hentry := by
    change entry ∈ List.drop _ (s.context.rebound ++ [(path, s.nextVersionOf path)]) at hentry
    rw [List.drop_append_of_le_length h.start] at hentry
    rcases List.mem_append.1 hentry with hold | hnew
    · exact h.changed entry hold
    · obtain rfl := List.mem_singleton.1 hnew
      exact ⟨rfl, hpath⟩

end Confines

/-- The node is a loop in a well-built function, and the places in it are members of variables or
lie behind references. Dereferences are not resolved. -/
structure Looping (env : Env) (function : Function) (id condition body : NodeId)
    (effects : LoopEffects) : Prop where
  built : WellBuilt env function
  found : ∃ node, env.node id = .ok node ∧ node.expr = .loop condition body
  effects : loopEffects env.owner condition body = .ok effects
  places : ∀ other found target, Scans env.owner condition body other →
    env.node other = .ok found →
    (found.expr = .addressOf target ∨ ∃ value, found.expr = .assignment target value) →
    (∃ x m, Names env.owner.nodes target x m) ∨ Indirect env.owner.nodes target

namespace Looping

variable {p p' : Progress (.ofNodes env [id])}

variable (h : Looping env function id condition body effects)

include h

/-- The analysis of a loop comes to the loop itself and to what it looks at. -/
theorem scans {position : Position} (htraverses : Traverses env [id] position other) :
    other = id ∨ Scans env.owner condition body other := by
  obtain ⟨node, hnode, hexpr⟩ := h.found
  obtain ⟨root, hroot, hleads⟩ := htraverses.leads
  cases List.mem_singleton.1 hroot
  rcases hleads.descends.cases_head with heq | ⟨child, ⟨found, hfound, hchild⟩, hbelow⟩
  · exact .inl heq.symm
  · cases hnode.symm.trans hfound
    simp only [hexpr, Expr.children, List.mem_cons, List.not_mem_nil, or_false] at hchild
    rcases hchild with rfl | rfl
    · exact .inr (.inl hbelow)
    · exact .inr (.inr hbelow)

/-- What an inner loop finds, the loop around it finds too. -/
theorem finds {position : Position} (htraverses : Traverses env [id] position other) {found : Node}
    (hfound : env.node other = .ok found) {condition' body' : NodeId}
    (hexpr' : found.expr = .loop condition' body')
    (hinner : loopEffects env.owner condition' body' = .ok inner) :
    (∀ path ∈ inner.assigned, path ∈ effects.assigned) ∧
      ∀ path ∈ inner.addressTaken, path ∈ effects.addressTaken := by
  rcases h.scans htraverses with rfl | hscans
  · obtain ⟨node, hnode, hexpr⟩ := h.found
    cases hnode.symm.trans hfound
    cases hexpr.symm.trans hexpr'
    cases h.effects.symm.trans hinner
    exact ⟨fun _ hpath => hpath, fun _ hpath => hpath⟩
  · refine ⟨fun path hpath => ?_, fun path hpath => ?_⟩
    · obtain ⟨writer, writing, target, value, hwriter, hrest⟩ :=
        (mem_assigned_iff hinner).1 hpath
      exact (mem_assigned_iff h.effects).2
        ⟨writer, writing, target, value, hscans.inner hfound hexpr' hwriter, hrest⟩
    · obtain ⟨taker, taking, target, htaker, hrest⟩ := (mem_addressTaken_iff hinner).1 hpath
      exact (mem_addressTaken_iff h.effects).2
        ⟨taker, taking, target, hscans.inner hfound hexpr' htaker, hrest⟩

/-- The storage of a place in the loop belongs to a variable that the place names, or is exposed. -/
theorem slot {task : Task (.ofNodes env [id])} {target : NodeId}
    (hwork : task.node.expr = .addressOf target ∨
      ∃ value, task.node.expr = .assignment target value)
    (hcharted : s.Results (Charted env s.context.exposed)) {flow : NodeFlow}
    (hflow : s.flowAt target = some flow) {m : Path} (hextent : flow.bundle[m]? = some extent)
    (hslot : extent.slot.isSlot = true) :
    (∃ x n, Scans env.owner condition body task.id ∧ Names env.owner.nodes target x n ∧
      extent.slot.path = x ++ n ++ m) ∨ extent.slot.path ∈ s.context.exposed := by
  have hfound : env.node task.id = .ok task.node := task.found
  have hcharted := hcharted target flow hflow m extent hextent
  have hscans : Scans env.owner condition body task.id := by
    refine (h.scans task.visited).resolve_left fun hself => ?_
    obtain ⟨node, hnode, hexpr⟩ := h.found
    rw [hself] at hfound
    cases hnode.symm.trans hfound
    rw [hexpr] at hwork
    rcases hwork with hwork | ⟨value, hwork⟩ <;> cases hwork
  rcases h.places _ _ target hscans hfound hwork with ⟨x, n, hnames⟩ | hindirect
  · exact .inl ⟨x, n, hscans, hnames, hcharted.named x n hnames hslot⟩
  · exact .inr (hcharted.behind hindirect hslot)

/-- What is exposed in the loop was exposed before, or the loop knows that it takes the address. -/
theorem exposes (hcharted : s.Results (Charted env s.context.exposed))
    (hs : Confines effects before s) {task? : Option (Task (.ofNodes env [id]))}
    (hexposes : Exposes (.ofNodes env [id]) s task? path) :
    path ∈ before.context.exposed ∨ path ∈ effects.addressTaken := by
  cases hexposes with
  | @address task target flow extent hposition hexpr hflow hwhole hslot =>
    rcases h.slot (.inl hexpr) hcharted hflow hwhole hslot
      with ⟨x, n, hscans, hnames, hpath⟩ | hexposed
    · obtain ⟨ids, hids, -, haddressTaken⟩ := loopEffects_eq_ok h.effects
      rw [hpath, Path.append_whole]
      exact .inr (mem_namedPaths haddressTaken ((hids _).2 hscans) (env_node_eq_ok_iff.1 task.found)
        (by rw [hexpr]) hnames)
    · exact hs.exposed _ hexposed
  | loop hvisited hfound hexpr' hinner hpath =>
    exact .inr ((h.finds hvisited hfound hexpr' hinner).2 path hpath)

/-- The loop knows of the variables that it assigns to. -/
theorem assigns (hcharted : s.Results (Charted env s.context.exposed))
    (htyped : TypedState env function base s) (hs : Confines effects before s)
    {task : Task (.ofNodes env [id])} {field : Field} {place new : Extent}
    (hassigning : Assigning s task field place new) (hslot : place.slot.isSlot = true) :
    effects.Touches before.context place.slot.path := by
  obtain ⟨⟨whole, names, ⟨x, site, ty, m, hbinds, hdenotes, -⟩, -⟩, -⟩ :=
    hassigning.houses h.built htyped hslot
  obtain ⟨target, value, places, assigned, -, -, hexpr, hflow, -, -, -, -, hplace, -⟩ :=
    hassigning.operands
  rcases h.slot (.inr ⟨value, hexpr⟩) hcharted hflow hplace hslot
    with ⟨y, n, hscans, hnames, hpath⟩ | hexposed
  · obtain ⟨ids, hids, hassigned, -⟩ := loopEffects_eq_ok h.effects
    refine .inr ⟨y ++ n, ?_, Path.startsWith_iff.2 ⟨field.path, hpath⟩⟩
    exact mem_namedPaths hassigned ((hids _).2 hscans) (env_node_eq_ok_iff.1 task.found)
      (by rw [hexpr]) hnames
  · refine .inl ⟨place.slot.path, mem_ancestry_self ?_, hs.exposed _ hexposed⟩
    have hx := h.built.sited.nonempty hbinds
    simp [hdenotes, hx]

theorem step (hstep : Step (.ofNodes env [id]) p s p' s')
    (hcharted : s.Results (Charted env s.context.exposed)) (htyped : TypedState env function base s)
    (hs : Confines effects before s) : Confines effects before s' := by
  cases hstep with
  | begin | skip => exact hs
  | note | region | store | declared | plain | through | hidden | record | returned =>
      exact hs.of_eq rfl rfl
  | expose hexposes => exact hs.expose (h.exposes hcharted hs hexposes)
  | rebound hassigning hslot => exact hs.adopted (h.assigns hcharted htyped hs hassigning hslot) _ _
  | parameter hparameter => cases hparameter
  | entered hvisited hfound hexpr' hinner hlookup hsome hchange =>
    have hassigned := (h.finds hvisited hfound hexpr' hinner).1
    exact hs.adopted (touches_of_mayChange hchange hs.exposed hassigned) _ _

theorem lasts_confines (before : State) :
    Lasts (.ofNodes env [id]) (fun _ s => (Coherent s ∧ TypedState env function base s) ∧
      s.Results (Charted env s.context.exposed)) fun _ s => Confines effects before s where
  step hstep hknown hs := h.step hstep hknown.2 hknown.1.2 hs
  enter _ _ hs := hs.of_eq rfl rfl
  leave _ _ _ _ _ hs := hs.of_eq rfl rfl
  join := by
    intro p₀ p s₀ s path positive negative before frame _ hjoining _ hs₀ hs
    -- A branch has changed the variable since.
    obtain ⟨version, hlogged⟩ := hjoining.exists_logged
    exact hs.adopted
      (hs.changed _ ((List.drop_sublist_drop_left _ hs₀.start).subset hlogged)).2 _ frame
  flowBack _ _ _ _ _ _ _ hs := hs.of_eq rfl rfl

end Looping

/-! ## What flows back -/

/-- After a loop, a variable has its entry version, if the loop may change it: what the variable was
before and all versions that the loop has made of it are tied to it. Otherwise it is what it was. -/
theorem tied_of_runs_loop {recur : Recur} (hcondition : Keeps Grows (recur .value condition))
    (hbody : Keeps Grows (recur .value body))
    (h : Runs (loop env recur id condition body) s () s') :
    ∃ effects, loopEffects env.owner condition body = .ok effects ∧
      ∀ path extent, s.frame.lookup? path = some extent →
      ∃ after, s'.frame.lookup? path = some after ∧
        after.slot = extent.slot ∧ Tied s'.context.graph after.value extent.value ∧
        (extent.value.isNone = false → effects.Touches s.context path →
          ∀ version, version.isNone = false →
          Logged s s' path version → Tied s'.context.graph after.value version) := by
  obtain ⟨effects, candidates, s₀, s₁, s₂, h⟩ := runs_loop h
  have hiterates : Grows s₁ s₂ := by
    obtain ⟨t, hfirst, hsecond⟩ := runs_forM_cons_iff.1 h.iterates
    exact ((Grows.frame s₁ _).trans (hcondition _ _ _ hfirst)).trans
      (hbody _ _ _ (runs_forM_singleton_iff.1 hsecond))
  have hgrows := hiterates.trans h.leaves.1
  refine ⟨effects, h.enters.reads, fun path extent hlookup => ?_⟩
  rw [h.leaves.2.1]
  by_cases hcandidate : path ∈ candidates
  · obtain ⟨before, t, hbefore, hafter, -, htied⟩ := h.enters.renews.renewed hcandidate
    obtain ⟨found, hfound, hsome, -⟩ := (h.enters.covers path).1 hcandidate
    rw [h.enters.frame] at hbefore
    cases hlookup.symm.trans hbefore
    cases hlookup.symm.trans hfound
    refine ⟨_, hafter, rfl, (htied _ List.mem_cons_self hsome).mono hgrows.graph,
      fun _ _ version hversion hlogged => ?_⟩
    -- The version was made when the loop was entered, or in the loop.
    rcases hlogged.split h.enters.grows hgrows with hlogged | hlogged
    · obtain ⟨-, slot, hcurrent⟩ := h.enters.current hlogged
      cases hafter.symm.trans hcurrent
      exact .inl rfl
    · rw [Logged, h.leaves.2.2.1] at hlogged
      exact (h.back path hcandidate _ hafter).2 version hlogged hversion
  · refine ⟨extent, ?_, rfl, .inl rfl, fun hsome htouches => absurd ?_ hcandidate⟩
    · rw [h.enters.renews.kept hcandidate, h.enters.frame]
      exact hlookup
    · obtain ⟨exposed, rfl, hexposed⟩ := h.enters.exposes
      exact (h.enters.covers path).2
        ⟨extent, hlookup, hsome, mayChange_of_touches htouches fun above => (hexposed above).2⟩

/-! ## Points of a loop -/

section Frames

variable {X : Setting} {p p' : Progress X}

theorem Inside.enclosing (h : Inside X p s p' s') (hfresh : p.Fresh s) :
    s.frame.enclosing <:+ s'.frame.enclosing := by
  induction h with
  | here h => exact (h.reframes hfresh).2.enclosing ▸ List.suffix_rfl
  | inner h htask henter _ ih =>
    have hinner := ih (Progress.fresh_of_task_eq_none htask)
    rw [← (h.reframes hfresh).2.enclosing]
    refine List.IsSuffix.trans ?_ hinner
    rcases henter with rfl | rfl <;> exact ⟨[_], rfl⟩
  | back h hbody htask hback _ ih =>
    have hreframes := ((h.trans hbody).reframes hfresh).2.trans hback.reframes
    rw [← hreframes.enclosing]
    exact ih (Progress.fresh_of_task_eq_none htask)

/-- What a path is bound to in a scope that is still open was so when the scope was entered, or is a
new version, or the path was declared. -/
theorem Inside.lookup (h : Inside X p s p' s') (hfresh : p.Fresh s) {frame : Frame}
    (hframe : frame.scopes <:+ s'.frame.scopes)
    (hdepth : s.frame.scopes.length ≤ frame.scopes.length)
    (hlookup : frame.lookup? path = some extent) :
    s.frame.lookup? path = some extent ∨ Logged s s' path extent.value ∨ Opens X s path := by
  have hsame : ∀ {other : Frame}, frame.scopes = other.scopes →
      other.lookup? path = some extent := by
    intro other heq
    rw [← hlookup, Frame.lookup?, Frame.lookup?, heq]
  induction h with
  | here h =>
    have hreframes := (h.reframes hfresh).2
    refine hreframes.lookup (hsame (hframe.eq_of_length (Nat.le_antisymm hframe.length_le ?_)))
    simpa [Frame.scopes, hreframes.enclosing] using hdepth
  | back h hbody htask hback hinner ih =>
    have hreframes := ((h.trans hbody).reframes hfresh).2.trans hback.reframes
    have hdepth₃ := hdepth
    rw [Frame.scopes, List.length_cons, ← hreframes.enclosing] at hdepth₃
    rcases ih (Progress.fresh_of_task_eq_none htask) hframe hdepth₃ with hsame | hlogged | hopens
    · rcases hreframes.lookup hsame with hsame | hlogged | hopens
      · exact .inl hsame
      · exact .inr (.inl (hlogged.later hinner.grows))
      · exact .inr (.inr hopens)
    · exact .inr (.inl (hlogged.earlier hreframes.grows))
    · exact .inr (.inr (hopens.earlier hreframes.grows))
  | @inner p p₁ p' s s₁ s' enter h htask henter hinner ih =>
    have hreframes := (h.reframes hfresh).2
    have hscopes : (enter s₁.frame).scopes = .empty :: s₁.frame.scopes := by
      rcases henter with rfl | rfl <;> rfl
    have hvisible : (enter s₁.frame).lookup? path = s₁.frame.lookup? path := by
      rcases henter with rfl | rfl <;> simp
    have hgrows : Grows s₁ s' := (Grows.frame _ _).trans hinner.grows
    have hback : s₁.frame.lookup? path = some extent →
        s.frame.lookup? path = some extent ∨ Logged s s' path extent.value ∨
        Opens X s path := by
      intro hlookup
      rcases hreframes.lookup hlookup with hsame | hlogged | hopens
      · exact .inl hsame
      · exact .inr (.inl (hlogged.later hgrows))
      · exact .inr (.inr hopens)
    by_cases hdeep : (enter s₁.frame).scopes.length ≤ frame.scopes.length
    · rcases ih (Progress.fresh_of_task_eq_none htask) hframe hdeep with hsame | hlogged | hopens
      · exact hback (hvisible ▸ hsame)
      · exact .inr (.inl (Logged.earlier hlogged (h.grows.trans (.frame _ _))))
      · exact .inr (.inr (Opens.earlier hopens (h.grows.trans (.frame _ _))))
    · -- The scope is the one in which the loop stands.
      have hbelow : s₁.frame.scopes <:+ s'.frame.scopes := by
        have henclosing := hinner.enclosing (Progress.fresh_of_task_eq_none htask)
        have heq : (enter s₁.frame).enclosing = s₁.frame.scopes := by
          rcases henter with rfl | rfl <;> rfl
        rw [heq] at henclosing
        exact henclosing.trans ⟨[_], rfl⟩
      have hlength : frame.scopes.length = s₁.frame.scopes.length := by
        have hlength₁ : s₁.frame.scopes.length = s.frame.scopes.length := by
          simp [Frame.scopes, hreframes.enclosing]
        rw [hscopes, List.length_cons] at hdeep
        omega
      exact hback
        (hsame ((List.suffix_of_suffix_length_le hframe hbelow hlength.le).eq_of_length hlength))

end Frames

instance (G : Outlives) (after value : Lifetime) : Decidable (Tied G after value) :=
  inferInstanceAs (Decidable (value = after ∨ value ∈ G.contents.targets after))

/-- A path that has been introduced belongs to no declaration that is still to come. -/
theorem Introduced.not_opens {p : Progress (.ofFunction env function)}
    (hsited : env.owner.Sited function) (hacyclic : Setting.Acyclic (.ofNodes env [id]))
    (h : Introduced (.ofFunction env function) p s path) (htask : p.task = none) :
    ¬ Opens (.ofNodes env [id]) s path := by
  have hbinds : ∀ {other found x value}, env.node other = .ok found →
    found.expr = .declaration x value →
      ∃ ty, Binds function.parameters env.owner.nodes x (some other) ty := by
    intro other found x value hfound hexpr
    have hsites := hsited.nodes other found (env_node_eq_ok_iff.1 hfound)
    rw [hexpr] at hsites
    obtain ⟨valueNode, hvalue⟩ := hsites
    exact ⟨_, .declaration (env_node_eq_ok_iff.1 hfound) hexpr hvalue⟩
  rintro (⟨parameter, hparameter, -⟩
    | ⟨other, found, y, source, n, -, hfound, hdeclares, rfl, hfresh⟩)
  · cases hparameter
  · obtain ⟨ty, hother⟩ := hbinds hfound hdeclares
    rcases h with ⟨parameter, hparameter, m, hpath⟩
      | ⟨declared, node, x, value, m, hnode, hexpr, hpath, hdone⟩
    · cases (hsited.apart hother (.parameter hparameter) hpath).2.1
    · obtain ⟨ty', hdeclared⟩ := hbinds hnode hexpr
      cases (hsited.apart hother hdeclared hpath).2.1
      rcases hdone with hdone | ⟨task, hwork, -⟩
      · exact hdone (hfresh hacyclic)
      · rw [htask] at hwork
        cases hwork

/-- Around a loop: its path is bound as before or to a newer version at every point of the loop, and
what is bound after the loop knows all of them. -/
theorem Looping.tied (hbuilt : WellBuilt env function) (hoff : env.options.resolveAliases = false)
    (hnode : env.node id = .ok node) (hexpr : node.expr = .loop condition body)
    (hplaces : ∀ other found target, Scans env.owner condition body other →
      env.node other = .ok found →
      (found.expr = .addressOf target ∨ ∃ value, found.expr = .assignment target value) →
      (∃ x m, Names env.owner.nodes target x m) ∨ Indirect env.owner.nodes target)
    (hcoherent : Coherent s) (htyped : TypedState env function base s)
    (hcharted : s.Results (Charted env s.context.exposed)) (hfresh : s.flowAt id = none)
    {depth : Nat} (hrun : Runs (analyzeNode env depth .value id) s () s')
    (hlookup : s.frame.lookup? path = some extent) :
    ∃ after, s'.frame.lookup? path = some after ∧ after.slot = extent.slot ∧
      Tied s'.context.graph after.value extent.value ∧
      ∀ version, Logged s s' path version → Tied s'.context.graph after.value version := by
  obtain ⟨below, node', -, hnode', hrule⟩ := runs_analyzeNode hrun hfresh
  cases hnode.symm.trans hnode'
  rw [hexpr] at hrule
  obtain ⟨effects, heffects, hties⟩ :=
    tied_of_runs_loop (grows_analyzeNode env below .value condition)
    (grows_analyzeNode env below .value body) hrule
  have hloop : Looping env function id condition body effects :=
    ⟨hbuilt, ⟨node, hnode, hexpr⟩, heffects, hplaces⟩
  -- The transitions of the loop, from the state in which it is entered.
  obtain ⟨p', hsteps⟩ := steps_analyzeNode (closed_traverses env [] [id])
    (Traverses.root (List.mem_singleton_self id)) hrun
  have hlasts := ((lasts_coherent.and
    (lasts_typedState (X := .ofNodes env [id]) hbuilt hoff (by simp [Setting.ofNodes])
    base)).and ((lasts_charted hoff).weaken (·.1))).and (hloop.lasts_confines s)
  obtain ⟨⟨⟨-, htyped'⟩, -⟩, hconfines⟩ :=
    hlasts.steps hsteps ⟨⟨⟨hcoherent, htyped⟩, hcharted⟩, .refl effects s⟩
  obtain ⟨after, hafter, hslot, htied, hversions⟩ := hties path extent hlookup
  refine ⟨after, hafter, hslot, htied, fun version hlogged => ?_⟩
  obtain ⟨hversion, htouches⟩ := hconfines.changed _ hlogged
  refine hversions ?_ htouches version hversion hlogged
  -- A path with new versions is tracked, so it had a lifetime before the loop.
  obtain ⟨ty, b, hdenotes, hb, hiff⟩ := Frame.All.lookup htyped.bindings hlookup
  obtain ⟨ty', hdenotes', htracked⟩ := htyped'.versions (path, version) (by
    refine List.mem_of_mem_drop (i := s.context.rebound.length - base) ?_
    rwa [List.drop_drop, Nat.add_sub_cancel' htyped.start])
  cases hbuilt.denotes_unique hdenotes hdenotes'
  cases hb.symm.trans htracked
  exact hiff.2 rfl

/-- After a loop every variable is bound to a lifetime that knows all that it may have held: what it
was bound to before, every version made in the loop, and what it is bound to in any scope that is
open at any point of the loop; its slot is the same. Assumed is that operands are drafted before the
node that has them, and that the loop takes addresses of variables and of what is behind pointers,
and assigns such places. -/
theorem tied_of_loop {items : List Item} {assembly : Program.Assembly} {owner : Owner}
    (hitems : Program.ofItems items = .ok assembly) (howner : owner ∈ assembly.program.owners)
    (hkind : owner.kind = .function function) (hneat : owner.Neat assembly.declarations function)
    (hordered : ∀ other found, owner.nodes.get? other = some found →
      ∀ child ∈ found.expr.children,
      child.index < other.index) {options : Options} (hoff : options.resolveAliases = false)
    {context : Context}
    (hpasses : PassesBy (.ofFunction assembly.declarations options owner function) function context
      (.before id) s) (hnode : owner.nodes.get? id = some node)
    (hexpr : node.expr = .loop condition body)
    (hplaces : ∀ other found target, Scans owner condition body other →
      owner.nodes.get? other = some found →
      (found.expr = .addressOf target ∨ ∃ value, found.expr = .assignment target value) →
      (∃ x m, Names owner.nodes target x m) ∨ Indirect owner.nodes target) {depth : Nat}
    (hrun : Runs
      (analyzeNode (.ofFunction assembly.declarations options owner function) depth .value id) s ()
      s') {extent : Extent} (hlookup : s.frame.lookup? path = some extent) :
    ∃ after, s'.frame.lookup? path = some after ∧ after.slot = extent.slot ∧
      Tied s'.context.graph after.value extent.value ∧
      (∀ version, Logged s s' path version → Tied s'.context.graph after.value version) ∧
      ∀ moment t, Halts
      (analyzeUntil (.ofFunction assembly.declarations options owner function) (· = moment)
          depth .value id) s t →
        ∀ (frame : Frame), frame.scopes <:+ t.frame.scopes →
        s.frame.scopes.length ≤ frame.scopes.length →
          ∀ (bound : Extent), frame.lookup? path = some bound →
          Tied s'.context.graph after.value bound.value := by
  let env : Env := .ofFunction assembly.declarations options owner function
  have hbuilt : WellBuilt env function := wellBuilt_ofFunction hitems howner hkind hneat options
  have henv : ∀ {other found}, env.node other = .ok found ↔
      owner.nodes.get? other = some found :=
    env_node_eq_ok_iff
  obtain ⟨p, htask, hinside⟩ := hpasses.inside
  have hstart : Coherent (.start context env.owner.nodes.size) := coherent_start _ _
  have hcoherent := hinside.coherent hstart
  have htyped := hinside.typedState hbuilt hoff (fun _ h => h) hstart (typedState_start _ _)
  have hcharted := hinside.charted hoff hstart (.start _ _)
  have hintroduced := hinside.introduced (frame_all_start _ _ _)
  obtain ⟨after, hafter, hslot, htied, hversions⟩ :=
    Looping.tied hbuilt hoff (henv.2 hnode) hexpr
    (fun other found target hscans hfound => hplaces other found target hscans (henv.1 hfound))
      hcoherent
    htyped hcharted hpasses.visits_and_flowAt.2 hrun hlookup
  refine ⟨after, hafter, hslot, htied, hversions, ?_⟩
  intro moment t hhalts frame hframe hdepth bound hbound
  have hacyclic : Setting.Acyclic (.ofNodes env [id]) :=
    ⟨fun _ => True, NodeId.index, fun _ _ _ => trivial, fun other found _ hfound child hchild =>
      ⟨trivial, hordered other found (henv.1 hfound) child hchild⟩⟩
  have htraces := passable_analyzeUntil (X := .ofNodes env [id]) (· = moment)
    (Watch.guides_halting (fun _ => True) _)
      (fun _ _ _ hvisits _ => closed_traverses env [] [id] _ _ _ hvisits)
    (fun _ _ _ _ _ _ => trivial) (fun _ _ _ _ _ _ _ _ _ _ => trivial) depth (.inl trivial)
    (Traverses.root (List.mem_singleton_self id)) ⟨none, []⟩ s rfl trivial (.refl _ _)
  rw [show analyzeUntil (Setting.ofNodes env [id]).env (· = moment) depth .value id
    s = .error halt t from hhalts] at htraces
  obtain ⟨p', hinner, -⟩ := htraces
  rcases hinner.lookup (Progress.fresh_of_task_eq_none rfl) hframe hdepth hbound
    with hsame | hlogged | hopens
  · cases hlookup.symm.trans hsame
    exact htied
  · exact hversions _ (hlogged.later (grows_of_halts hhalts hrun))
  · exact absurd hopens
      (Introduced.not_opens hbuilt.sited hacyclic (Frame.All.lookup hintroduced hlookup) htask)

/-! ## Two loops -/

/-- A loop runs in a neat body, and a path is bound to certain data before the loop, at a point of
it and after it. -/
def LoopShows (id condition body point : NodeId) (path : Path)
    (P : Owner → Outlives → Lifetime → Lifetime → Lifetime → Prop)
    (assembly : Program.Assembly) (owner : Owner) (function : Function) (s : State) : Prop :=
  owner.LooksNeat assembly.declarations (fun _ => 0) function ∧
  (∃ node, owner.nodes.get? id = some node ∧ node.expr = .loop condition body) ∧
  ∃ s', Runs
  (analyzeNode (.ofFunction assembly.declarations { resolveAliases := false } owner function)
    owner.depth .value id) s () s' ∧
  ∃ t, Halts
  (analyzeUntil (.ofFunction assembly.declarations { resolveAliases := false } owner function)
    (· = .after point) owner.depth .value id) s t ∧
      s.frame.scopes.length ≤ t.frame.scopes.length ∧
  ∃ before, s.frame.lookup? path = some before ∧
  ∃ bound, t.frame.lookup? path = some bound ∧
  ∃ after, s'.frame.lookup? path = some after ∧
    P owner s'.context.graph before.value bound.value after.value

instance {condition point : NodeId}
    {P : Owner → Outlives → Lifetime → Lifetime → Lifetime → Prop}
    [∀ owner graph before bound after, Decidable (P owner graph before bound after)]
    {assembly : Program.Assembly} {owner : Owner} :
    Decidable (LoopShows id condition body point path P assembly owner function s) := by
  delta LoopShows
  infer_instance

/-- The function `f(int* a, int* b) { x = a; while (true) { while (true) { *&x = b } } }`. -/
def nesting : List Item := [
  .function "f" [⟨"a", .pointer .int, true⟩, ⟨"b", .pointer .int, true⟩] .void (.block [
    .declare "x" (.var "a"),
    .loop (.literal (.bool true)) (.block [
      .loop (.literal (.bool true)) (.block [
        .assign (.dereference (.addressOf (.var "x"))) (.var "b")])])])]

set_option synthInstance.maxSize 1024

/-- The assignment stands in two loops; the outer one knows the version that it makes. -/
theorem tied_nesting : ∃ assembly owner function s s' t before bound,
    Program.ofItems nesting = .ok assembly ∧ owner ∈ assembly.program.owners ∧
    owner.kind = .function function ∧ owner.Neat assembly.declarations function ∧
    PassesBy (.ofFunction assembly.declarations { resolveAliases := false } owner function)
    function .initial (.before ⟨12⟩) s ∧
    Runs (analyzeNode
      (.ofFunction assembly.declarations { resolveAliases := false } owner function) owner.depth
      .value ⟨12⟩) s () s' ∧
    Halts
    (analyzeUntil (.ofFunction assembly.declarations { resolveAliases := false } owner function)
      (· = .after ⟨8⟩) owner.depth .value ⟨12⟩) s t ∧
    s.frame.lookup? (.ofString "f::$block_0::x") = some before ∧
    t.frame.lookup? (.ofString "f::$block_0::x") = some bound ∧ bound.value ≠ before.value ∧
    ∃ after, s'.frame.lookup? (.ofString "f::$block_0::x") = some after ∧
    after.slot = before.slot ∧
      after.value ≠ bound.value ∧ Tied s'.context.graph after.value before.value ∧
      Tied s'.context.graph after.value bound.value := by
  have h : PassesAt nesting { resolveAliases := false } (.before ⟨12⟩)
    (LoopShows ⟨12⟩ ⟨2⟩ ⟨11⟩ ⟨8⟩
      (.ofString "f::$block_0::x") fun owner _ before bound after =>
      bound ≠ before ∧ after ≠ bound ∧
        ∀ id node, owner.nodes.get? id = some node →
        ∀ target, node.expr.aim? = some target →
          ∃ place, owner.nodes.get? target = some place ∧
            (place.expr = .var (.ofString "f::$block_0::x") ∨
            place.expr = .dereference ⟨5⟩)) := by
    decide +kernel
  obtain ⟨assembly, hitems, owner, howner, function, hkind, s, hpasses, hneat,
    ⟨node, hnode, hexpr⟩, s', hrun, t,
    hhalts, hdepth, before, hbefore, bound, hbound, after, hafter, hnew, hdiffers, haims⟩ := h
  have hplaces : ∀ other found target, owner.nodes.get? other = some found →
      (found.expr = .addressOf target ∨ ∃ value, found.expr = .assignment target value) →
      (∃ x m, Names owner.nodes target x m) ∨ Indirect owner.nodes target := by
    intro other found target hfound haim
    obtain ⟨place, hplace, hvar | hbehind⟩ :=
      haims other found hfound target (Expr.aim?_eq_some_iff.2 haim)
    · exact .inl ⟨_, _, .var hplace hvar⟩
    · exact .inr (.dereference hplace hbehind)
  obtain ⟨after', hafter', hslot, htied, -, hpoints⟩ :=
    tied_of_loop hitems howner hkind hneat.neat
    hneat.1.laidOut.nodes.ordered rfl hpasses hnode hexpr
      (fun other found target _ => hplaces other found target)
    hrun hbefore
  cases hafter.symm.trans hafter'
  exact ⟨assembly, owner, function, s, s', t, before, bound, hitems, howner, hkind, hneat.neat,
    hpasses, hrun,
    hhalts, hbefore, hbound, fun heq => hnew (by rw [heq]), after, hafter, hslot, hdiffers, htied,
    hpoints _ t hhalts t.frame List.suffix_rfl hdepth bound hbound⟩

/-- With `struct S { int* m; }`, the function `f() { z = 0; x = S { m: new int }; y = { x }.m;
while (true) { <the same { x }.m> = &z }; x.m }`. -/
def revisiting : List Item := [
  .aggregate .struct "S" [⟨"m", .pointer .int, true⟩],
  .function "f" [] (.pointer .int) (.block [
    .declare "z" (.literal (.int 0)),
    .declare "x" (.record (.nominal (.ofString "S") .struct) [("m", .newDefault .int)]),
    .declare "y" (.labelled "t" (.member (.block [.var "x"]) "m")),
    .loop (.literal (.bool true)) (.block [.assign (.shared "t") (.addressOf (.var "z"))]),
    .member (.var "x") "m"])]

/-- A member of a block is no variable and is behind no pointer. Where its node has been analysed
before, it still has the slot of the variable: the loop assigns `x::m`, and what it is bound to
after the loop does not know the new version. -/
theorem not_tied_revisiting :
    ∃ assembly owner function s s' t node condition body before bound after,
    Program.ofItems revisiting = .ok assembly ∧ owner ∈ assembly.program.owners ∧
    owner.kind = .function function ∧ owner.Neat assembly.declarations function ∧
    (∀ other found, owner.nodes.get? other = some found → ∀ child ∈ found.expr.children,
      child.index < other.index) ∧
    PassesBy (.ofFunction assembly.declarations { resolveAliases := false } owner function)
    function .initial (.before ⟨14⟩) s ∧
    owner.nodes.get? ⟨14⟩ = some node ∧ node.expr = .loop condition body ∧
    Runs
    (analyzeNode
      (.ofFunction assembly.declarations { resolveAliases := false } owner function) owner.depth
      .value ⟨14⟩) s () s' ∧
    Halts
    (analyzeUntil (.ofFunction assembly.declarations { resolveAliases := false } owner function)
      (· = .after ⟨12⟩) owner.depth .value ⟨14⟩) s t ∧
      s.frame.scopes.length ≤ t.frame.scopes.length ∧
    s.frame.lookup? (.ofString "f::$block_0::x::m") = some before ∧
    t.frame.lookup? (.ofString "f::$block_0::x::m") = some bound ∧
    s'.frame.lookup? (.ofString "f::$block_0::x::m") = some after ∧
    ¬ Tied s'.context.graph after.value bound.value := by
  have h : PassesAt revisiting { resolveAliases := false } (.before ⟨14⟩)
    (LoopShows ⟨14⟩ ⟨9⟩ ⟨13⟩ ⟨12⟩
      (.ofString "f::$block_0::x::m") fun _ graph _ bound after => ¬ Tied graph after bound) := by
    decide +kernel
  obtain ⟨assembly, hitems, owner, howner, function, hkind, s, hpasses, hneat,
    ⟨node, hnode, hexpr⟩, s', hrun, t,
    hhalts, hdepth, before, hbefore, bound, hbound, after, hafter, hfree⟩ := h
  exact ⟨assembly, owner, function, s, s', t, node, _, _, before, bound, after, hitems, howner,
    hkind, hneat.neat,
    hneat.1.laidOut.nodes.ordered, hpasses, hnode, hexpr, hrun, hhalts, hdepth, hbefore, hbound,
    hafter, hfree⟩

end Regions.Flow
