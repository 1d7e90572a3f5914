import Regions.Proofs.Layouts
import Regions.Proofs.Transitions.Traces

/-!
# The rules as transitions

Every rule of the analysis is a sequence of transitions, and so is what it has done where it ends
early.

* `Passable`: the analysis of an operand only makes transitions;
* `Onward`, `Visiting`: what is known when a rule has visited some operands;
* `Ruling`: the rule of a node whose operands are visited, and one lemma for each rule.
-/

namespace Regions.Flow

open Std

variable {X : Setting} {α β : Type} {p₀ p p' : Progress X} {o s s' : State} {H : Watch}
  {env : Env} {bundle : Bundle} {ty : Ty} {joins : List Lifetime} {escaping : PathSet} {path : Path}
  {expr : Expr} {kind name : String} {fields : List Field} {target value : NodeId} {field : Field}
  {id : NodeId} {position : Position}

/-- What a node declares is visible. -/
def Shows (env : Env) (node : Node) (s : State) : Prop :=
  ∀ path value, node.expr = .declaration path value →
    ∃ ty fields, env.typeOf value = .ok ty ∧
    env.fields ty = .ok fields ∧
    ∀ field ∈ fields, ∃ extent, s.frame.lookup? (path ++ field.path) = some extent

theorem Shows.mono {node : Node} (h : Shows env node s)
    (hvisible : s.frame.VisibleIn s'.frame) : Shows env node s' := by
  intro path value hexpr
  obtain ⟨ty, fields, hty, hfields, hall⟩ := h path value hexpr
  exact ⟨ty, fields, hty, hfields, fun field hfield => hvisible _ (hall field hfield)⟩

theorem Result.shows {node : Node}
    (h : Result env s id node.ty position node.expr bundle) : Shows env node s := by
  intro path value hexpr
  rw [hexpr] at h
  cases position with
  | value => exact h.2
  | place => exact h.elim

/-- Nothing is at work, the node has its result, and what it declares is visible. -/
abbrev Ended (X : Setting) (id : NodeId) (node : Node) : Unit → Progress X → State → Prop :=
  fun _ p s => p.task = none ∧ s.flowAt id ≠ none ∧ Shows X.env node s

theorem members_of_untrackedBundle {fault : Fault} (h : untrackedBundle env ty = .error fault) :
    env.declarations.members ty = .error fault := by
  cases hmembers : env.declarations.members ty with
  | ok members => simp [untrackedBundle, hmembers, bind, Except.bind, pure, Except.pure] at h
  | error other => simpa [untrackedBundle, hmembers, bind, Except.bind] using h

namespace Traces

variable {Q : α → Progress X → State → Prop} {R : β → Progress X → State → Prop}
  {step : FlowM α}

/-! ## The own part of a rule -/

/-- The own part of a rule begins with this step. -/
theorem begin (task : Task X) (hdone : task.done = []) (hsince : task.since = s.context)
    (hp : p.task = none) (hfresh : X.Acyclic → s.flowAt task.id = none)
    (hoperands : ∀ use ∈ task.node.expr.uses task.position, s.flowAt use.2 ≠ none)
    (h : Traces p₀ o ⟨some task, p.joins⟩ step s H Q) : Traces p₀ o p step s H Q := by
  intro hsteps
  have hp' : p = ⟨none, p.joins⟩ := by
    rw [← hp]
  rw [hp'] at hsteps
  exact h (hsteps.step (.begin task hdone hsince hfresh hoperands))

theorem record {task : Task X} (hfresh : X.Acyclic → s.flowAt task.id = none)
    (hresult : Result X.env s task.id task.node.ty task.position task.node.expr bundle)
    (hescapes : Escapes X.env s task.node.ty task.position task.node.expr escaping)
    (hfills : ∀ value, task.node.expr = .new (some value) →
      Fills X.env task.since.heapWrites.length s task.id value ∧ Cleared X.env s value :=
        by rintro _ ⟨⟩) :
    Traces p₀ o ⟨some task, joins⟩ (record task.id bundle escaping) s H
    (Ended X task.id task.node) := by
  intro hsteps
  cases hrun : Flow.record task.id bundle escaping s with
  | ok u s' =>
    obtain ⟨-, hcontext, hframe, hflow⟩ := runs_record hrun
    obtain ⟨context, frame, recorded⟩ := s'
    obtain ⟨rfl, rfl⟩ : context = s.context ∧ frame = s.frame := ⟨hcontext, hframe⟩
    exact ⟨⟨none, joins⟩, hsteps.step (.record hresult hrun hescapes hfills), rfl,
      by simp [hflow], hresult.shows⟩
  | error abort s' =>
    obtain ⟨rfl, ⟨rfl, htwice⟩ | ⟨rfl, hrange⟩⟩ := aborts_record hrun
    · exact ⟨_, .here hsteps, .of_fault (.twice task fun hacyclic => htwice (hfresh hacyclic))⟩
    · exact ⟨_, .here hsteps, .of_fault (.range task.visited hrange)⟩

theorem entries {f : α → FlowM β} {xs : List α} {P : α → β → Prop}
    (h : ∀ x ∈ xs, Traces p₀ o p (f x) s H fun b p' s' => p = p' ∧ s = s' ∧ P x b) :
    Traces p₀ o p (xs.mapM f) s H fun bs p' s' =>
    p = p' ∧ s = s' ∧ List.Forall₂ P xs bs := by
  refine mapM (fun before bs p' s' => p = p' ∧ s = s' ∧ List.Forall₂ P before bs)
    ⟨rfl, rfl, .nil⟩ fun before x after hxs bs p₁ s₁ hI => ?_
  obtain ⟨rfl, rfl, hbs⟩ := hI
  refine (h x (by simp [hxs])).weaken fun b p' s' hb => ?_
  obtain ⟨hp, hs, hb⟩ := hb
  exact ⟨hp, hs, List.rel_append hbs (.cons hb .nil)⟩

theorem store {task : Task X} {stored container : Lifetime} {ty? : Option Ty}
    {P : Unit → Progress X → State → Prop} (hstores : Stores s task container stored)
    (h : P () ⟨some task, joins⟩ (s.withGraph (s.context.graph.store stored container ty?))) :
    Traces p₀ o ⟨some task, joins⟩ (store stored container ty?) s H P :=
  of_step (runs_store_iff.2 rfl) (.store ty? hstores) h

theorem storeThen {task : Task X} {stored container : Lifetime} {ty? : Option Ty}
    {next : Unit → FlowM β} (hstores : Stores s task container stored)
    (h : Traces p₀ o ⟨some task, joins⟩ (next ())
      (s.withGraph (s.context.graph.store stored container ty?)) H R) :
    Traces p₀ o ⟨some task, joins⟩ (Flow.store stored container ty? >>= next) s H R :=
  stepThen (runs_store_iff.2 rfl) (.store ty? hstores) h

theorem newRootThen {origin : Origin} {next : Lifetime → FlowM β}
    (h : Traces p₀ o p (next (.root path origin)) (s.withContext
      { s.context with roots := s.context.roots.insert (.root path origin) }) H R) :
    Traces p₀ o p (newRoot path origin >>= next) s H R :=
  stepThen (runs_newRoot_iff.2 ⟨rfl, rfl⟩) (.region path origin) h

theorem captureThen {captured : PathSet} {holder : Path} {next : Unit → FlowM β}
    (h : ∀ captures : Captures,
      (∀ x ∈ captured, x = holder ∨ captures.held.Adj holder x) →
      Traces p₀ o p (next ()) (s.withContext { s.context with captures }) H R) :
    Traces p₀ o p (capture captured holder >>= next) s H R := by
  refine stepThen (a := ()) (runs_modifyContext_iff.2 rfl)
    (.note _ s.context.heapWrites (List.prefix_refl _) fun _ _ hadj => ?_) (h _ fun x hx => ?_)
  · exact Captures.adj_foldl_record_iff.2 (.inr hadj)
  · by_cases hself : x = holder
    · exact .inl hself
    · exact .inr
        (Captures.adj_foldl_record_iff.2 (.inl ⟨rfl, ExtTreeSet.mem_toList.2 hx, hself⟩))

/-- A write is logged, and may be a violation. -/
theorem check {write : HeapWrite} {P : Unit → Progress X → State → Prop}
    (h : ∀ heapWrites, P () p (s.withContext { s.context with heapWrites })) :
    Traces p₀ o p (check X.env write) s H P := by
  refine bind (Q := fun _ p' s' => p = p' ∧ s' = s.withContext
    { s.context with heapWrites := s.context.heapWrites ++ [write] }) ?_ ?_
  · exact of_step (a := ()) (runs_modifyContext_iff.2 rfl)
      (.note s.context.captures _ (List.prefix_append _ _) fun _ _ hadj => hadj) ⟨rfl, rfl⟩
  · rintro _ _ _ ⟨rfl, rfl⟩
    exact verify (h _)

end Traces

/-! ## Storings of the own part -/

/-- Only regions, storings and notes were added. -/
structure Augments (s s' : State) : Prop where
  flowAt : ∀ id, s'.flowAt id = s.flowAt id
  frame : s'.frame = s.frame
  graph : s.context.graph.Below s'.context.graph
  roots : ∀ root, root ∈ s.context.roots → root ∈ s'.context.roots

namespace Augments

variable {s₁ : State}

theorem refl (s : State) : Augments s s :=
  ⟨fun _ => rfl, rfl, Outlives.Below.refl _, fun _ h => h⟩

theorem trans (h : Augments s s₁) (h' : Augments s₁ s') : Augments s s' where
  flowAt := fun id => (h'.flowAt id).trans (h.flowAt id)
  frame := h'.frame.trans h.frame
  graph := h.graph.trans h'.graph
  roots := fun root hroot => h'.roots root (h.roots root hroot)

theorem store (s : State) (stored container : Lifetime) (ty? : Option Ty) :
    Augments s (s.withGraph (s.context.graph.store stored container ty?)) :=
  ⟨fun _ => rfl, rfl, (grows_store stored container ty?).graph, fun _ h => h⟩

theorem region (s : State) (path : Path) (origin : Origin) : Augments s (s.withContext
    { s.context with roots := s.context.roots.insert (.root path origin) }) :=
  ⟨fun _ => rfl, rfl, Outlives.Below.refl _, fun _ h => ExtTreeSet.mem_insert.2 (.inr h)⟩

theorem heapWrites (s : State) (heapWrites : List HeapWrite) :
    Augments s (s.withContext { s.context with heapWrites }) :=
  ⟨fun _ => rfl, rfl, Outlives.Below.refl _, fun _ h => h⟩

theorem pointer {pointer : Extent} (h : Augments s s') (hpointer : Pointer s expr kind pointer) :
    Pointer s' expr kind pointer := by
  cases hpointer with
  | dereference hflow hwhole => exact .dereference ((h.flowAt _).trans hflow) hwhole
  | index hflow hwhole => exact .index ((h.flowAt _).trans hflow) hwhole

end Augments

theorem Result.of_accessed {pointer : Extent}
    (hpointer : Pointer s expr kind pointer) (hfields : env.fields ty = .ok fields)
    (haccessed : Accessed env s id kind pointer fields position bundle) :
    Result env s id ty position expr bundle := by
  cases hpointer with
  | dereference hflow hwhole =>
    cases position <;> exact ⟨_, _, fields, .dereference hflow hwhole, hfields, haccessed⟩
  | index hflow hwhole =>
    cases position <;> exact ⟨_, _, fields, .index hflow hwhole, hfields, haccessed⟩

/-- Of what goes through a reference, nothing is said. -/
theorem Escapes.of_pointer {pointer : Extent}
    (hpointer : Pointer s expr kind pointer) (escaping : PathSet) :
    Escapes env s ty position expr escaping := by
  cases hpointer <;> cases position <;> exact trivial

theorem Traces.resolveThen {pointer : Extent} {access : Access} {next : Option Bundle → FlowM β}
    {R : β → Progress X → State → Prop}
    (hfault : ∀ fault, X.env.fields ty = .error fault → Faulty X H p₀ o s fault)
    (hnone : Traces p₀ o p (next none) s H R)
    (hsome : ∀ home fields bundle, pointee? X.env s pointer = some home →
      X.env.fields ty = .ok fields →
      aliasBundle? s.frame home.path access fields = some bundle →
      Traces p₀ o p (next (some bundle)) s H R) :
    Traces p₀ o p (resolve? X.env pointer ty access >>= next) s H R := by
  simp only [resolve?, bind_assoc]
  refine .getThen ?_
  split
  · rw [pure_bind]
    exact hnone
  · rename_i home hhome
    rw [bind_assoc]
    refine .liftThen hfault fun fields hfields => ?_
    rw [pure_bind]
    cases hbundle : aliasBundle? s.frame home.path access fields with
    | none => exact hnone
    | some bundle => exact hsome home fields bundle hhome hfields hbundle

/-! ## Rules -/

/-- The analysis of the operand only makes transitions, the last of which records its result. -/
def Passable (X : Setting) (H : Watch) (recur : Recur) (position : Position) (id : NodeId) : Prop :=
  ∀ (p : Progress X) (s : State), p.task = none → H.arrives position id s →
    Traces p s p (recur position id) s H fun _ p' s' => p'.task = none ∧ s'.flowAt id ≠ none ∧
      (s.flowAt id = none → ∀ node, X.env.node id = .ok node → Shows X.env node s')

/-- Nothing is at work, and the node has no result. -/
structure Idle (X : Setting) (id : NodeId) (p : Progress X) (s : State) : Prop where
  task : p.task = none
  fresh : X.Acyclic → s.flowAt id = none

theorem Idle.of_flowAt (h : Idle X id p s) (hflow : s'.flowAt id = s.flowAt id) :
    Idle X id p s' :=
  ⟨h.task, fun hacyclic => hflow.trans (h.fresh hacyclic)⟩

/-- The operands of the node have their results. -/
structure Served (X : Setting) (position : Position) (id : NodeId) (node : Node) (p : Progress X)
    (s : State) : Prop extends Idle X id p s where
  operands : ∀ use ∈ node.expr.uses position, s.flowAt use.2 ≠ none

/-- The analysis only comes to nodes without a result. -/
def Watch.Fresh (H : Watch) : Prop :=
  ∀ position id s, H.arrives position id s → s.flowAt id = none

/-- The rule of a node has gone from `s` to `s'`, where it visits an operand. The operands `before`
have been visited. -/
structure Onward (env : Env) (H : Watch) (node : Node) (before : List (Position × NodeId))
    (s s' : State) : Prop where
  visible : ∀ path, (∃ extent, s.frame.lookup? path = some extent) →
    ∃ extent, s'.frame.lookup? path = some extent
  inLoop : s.frame.inLoop = true → s'.frame.inLoop = true
  looping : ∀ condition body, node.expr = .loop condition body → s'.frame.inLoop = true
  recorded : ∀ S, env.Closes S → (∀ use ∈ before, S use.2) → RecordsOnly S s s'
  done : ∀ use ∈ before, s'.flowAt use.2 ≠ none
  /-- Statements see what those before them have declared. -/
  shows : H.Fresh → ∀ statements, node.expr = .block statements →
    ∀ use ∈ before, ∀ found, env.node use.2 = .ok found → Shows env found s'

/-- The rule of a node that was come to in `s₀` is in state `s`, and goes on with its next
operand. -/
structure Visiting (X : Setting) (H : Watch) (position : Position) (id : NodeId) (node : Node)
    (s₀ : State) (before : List (Position × NodeId)) (p : Progress X) (s : State) :
    Prop extends Idle X id p s where
  arrives : H.arrives position id s₀
  onward : Onward X.env H node before s₀ s

namespace Visiting

variable {node : Node} {s₀ : State} {before : List (Position × NodeId)}

theorem start (h : Idle X id p s) (harrives : H.arrives position id s)
    (hloop : ∀ condition body, node.expr ≠ .loop condition body) :
    Visiting X H position id node s [] p s where
  toIdle := h
  arrives := harrives
  onward := {
    visible := fun _ hpath => hpath
    inLoop := fun hin => hin
    looping := fun condition body hexpr => absurd hexpr (hloop condition body)
    recorded := fun _ _ _ _ _ => rfl
    done := by simp
    shows := by simp }

theorem served (h : Visiting X H position id node s₀ before p s)
    (huses : node.expr.uses position = before) : Served X position id node p s :=
  ⟨h.toIdle, huses ▸ h.onward.done⟩

/-- Nothing is hidden, and no node gets a result. -/
theorem reframe (h : Visiting X H position id node s₀ before p s)
    (hvisible : s.frame.VisibleIn s'.frame)
    (hloop : s.frame.inLoop = true → s'.frame.inLoop = true)
    (hflow : ∀ id, s'.flowAt id = s.flowAt id) :
    Visiting X H position id node s₀ before p s' where
  toIdle := h.toIdle.of_flowAt (hflow id)
  arrives := h.arrives
  onward := {
    visible := fun path hpath => hvisible path (h.onward.visible path hpath)
    inLoop := fun hin => hloop (h.onward.inLoop hin)
    looping := fun condition body hexpr => hloop (h.onward.looping condition body hexpr)
    recorded := fun S hS hbefore other hother =>
      (hflow other).trans (h.onward.recorded S hS hbefore other hother)
    done := fun use huse => hflow use.2 ▸ h.onward.done use huse
    shows := fun hfresh statements hexpr use huse found hfound =>
      (h.onward.shows hfresh statements hexpr use huse found hfound).mono hvisible }

/-- Where another frame is used again, what was visible in it still is. -/
theorem leave {before' : List (Position × NodeId)}
    (h : Visiting X H position id node s₀ before p s)
    (h' : Visiting X H position id node s₀ before' p' s')
    (hblock : ∀ statements, node.expr ≠ .block statements) :
    Visiting X H position id node s₀ before' p' { s' with frame := s.frame } where
  toIdle := h'.toIdle.of_flowAt rfl
  arrives := h.arrives
  onward := {
    visible := h.onward.visible
    inLoop := h.onward.inLoop
    looping := h.onward.looping
    recorded := h'.onward.recorded
    done := h'.onward.done
    shows := fun _ statements hexpr => absurd hexpr (hblock statements) }

end Visiting

/-- A node is analysed in a position, and so are its operands. -/
structure Ruling (X : Setting) (H : Watch) (recur : Recur) (position : Position) (id : NodeId)
    (node : Node) : Prop where
  visited : X.visits position id
  found : X.env.node id = .ok node
  operands : ∀ use ∈ node.expr.uses position, Passable X H recur use.1 use.2
  /-- An operand only gives results to itself and what is below it. -/
  records : ∀ use ∈ node.expr.uses position, ∀ s u s', Runs (recur use.1 use.2) s u s' →
    ∀ S, X.env.Closes S → S use.2 → RecordsOnly S s s'
  guided : ∀ before use after s s', node.expr.uses position = before ++ use :: after →
    H.arrives position id s → Onward X.env H node before s s' → H.arrives use.1 use.2 s'

namespace Ruling

variable {recur : Recur} {node : Node} {s₀ : State} {before : List (Position × NodeId)}
  {flow : NodeFlow}

theorem typeOf (h : Ruling X H recur position id node) : X.env.typeOf id = .ok node.ty :=
  Env.typeOf_of_node h.found

/-- The own part of the rule, with the fields that are done and the graph when it began. -/
abbrev task (h : Ruling X H recur position id node) (done : List Path) (since : Context) :
    Task X :=
  ⟨position, id, node, done, since, h.visited, h.found⟩

section

variable (h : Ruling X H recur position id node)

include h

theorem asks {fault : Fault} (hquestion : Question X.env node fault) : Faulty X H p₀ o s fault :=
  .question (h.task [] s.context) hquestion

/-- The operands of a node do not give it a result. -/
theorem apart {use : Position × NodeId} (huse : use ∈ node.expr.uses position) {u : Unit}
    (hrun : Runs (recur use.1 use.2) s u s') (hacyclic : X.Acyclic) :
    s'.flowAt id = s.flowAt id := by
  obtain ⟨S, rank, hS, hrank⟩ := hacyclic
  have hbelow := hrank id node (hS _ _ h.visited) h.found use.2 (Expr.mem_children_of_mem_uses huse)
  refine h.records use huse s u s' hrun (fun other => S other ∧ rank other < rank id) ?_ hbelow id
    fun hself => Nat.lt_irrefl _ hself.2
  intro other found hother hfound child hchild
  obtain ⟨hmem, hlt⟩ := hrank other found hother.1 hfound child hchild
  exact ⟨hmem, Nat.lt_trans hlt hother.2⟩

theorem visit {use : Position × NodeId} {after : List (Position × NodeId)}
    (hv : Visiting X H position id node s₀ before p s)
    (huses : node.expr.uses position = before ++ use :: after) :
    Traces p₀ o p (recur use.1 use.2) s H fun _ p' s' =>
      Visiting X H position id node s₀ (before ++ [use]) p' s' ∧ Analysed X use.2 s s' := by
  have huse : use ∈ node.expr.uses position := by simp [huses]
  have harrives := h.guided _ _ _ _ _ huses hv.arrives hv.onward
  refine (h.operands use huse p s hv.task harrives).andSteps.embed.andRuns.weaken ?_
  rintro u p' s' ⟨⟨⟨htask, hdone, hshows⟩, hsteps⟩, hrun⟩
  have hreframes := (hsteps.reframes (Progress.fresh_of_task_eq_none hv.task)).2
  refine ⟨⟨⟨htask, fun hacyclic => (h.apart huse hrun hacyclic).trans (hv.fresh hacyclic)⟩,
    hv.arrives, ?_⟩,
    hreframes, ⟨p, p', hv.task, htask, hsteps⟩, h.records use huse s u s' hrun⟩
  exact {
    visible := fun path hpath => hreframes.visible path (hv.onward.visible path hpath)
    inLoop := fun hin => hreframes.inLoop.trans (hv.onward.inLoop hin)
    looping :=
      fun condition body hexpr => hreframes.inLoop.trans (hv.onward.looping condition body hexpr)
    recorded := fun S hS hbefore other hother =>
      (h.records use huse s u s' hrun S hS (hbefore use (by simp)) other hother).trans
        (hv.onward.recorded S hS
          (fun use hmem => hbefore use (List.mem_append_left _ hmem)) other hother)
    done := by
      intro other hother
      rcases List.mem_append.1 hother with hother | hother
      · exact hreframes.grows.recorded_ne_none (hv.onward.done other hother)
      · rwa [List.mem_singleton.1 hother]
    shows := by
      intro hfresh statements hexpr other hother found hfound
      rcases List.mem_append.1 hother with hother | hother
      · exact (hv.onward.shows hfresh statements hexpr other hother found hfound).mono
          hreframes.visible
      · rw [List.mem_singleton.1 hother] at hfound
        exact hshows (hfresh _ _ _ harrives) found hfound }

/-- The operands are visited one after the other, as values. -/
theorem visitAll {γ : Type} {xs : List γ} {operand : γ → NodeId}
    (hv : Visiting X H position id node s₀ [] p s)
    (huses : node.expr.uses position = xs.map fun x => (.value, operand x)) :
    Traces p₀ o p (xs.forM fun x => recur .value (operand x)) s H fun _ p' s' =>
      Visiting X H position id node s₀ (node.expr.uses position) p' s' := by
  rw [huses]
  refine .forM (fun before p' s' => Visiting X H position id node s₀
    (before.map fun x => (.value, operand x)) p' s') hv fun before x after hsplit p₁ s₁ hv => ?_
  have hnext : node.expr.uses position = (before.map fun x => (.value, operand x)) ++
      (.value, operand x) :: after.map fun x => (.value, operand x) := by
    rw [huses, hsplit, List.map_append, List.map_cons]
  refine (h.visit hv hnext).weaken fun _ p' s' hvisit => ?_
  rw [List.map_append, List.map_singleton]
  exact hvisit.1

/-- The own part of the rule begins with this step. -/
theorem begin (hserved : Served X position id node p s) {step : FlowM α}
    {Q : α → Progress X → State → Prop}
    (hstep : Traces p₀ o ⟨some (h.task [] s.context), p.joins⟩ step s H Q) :
    Traces p₀ o p step s H Q :=
  .begin _ rfl rfl hserved.task hserved.fresh hserved.operands hstep

theorem record (hserved : Served X position id node p s)
    (hresult : Result X.env s id node.ty position node.expr bundle)
    (hescapes : Escapes X.env s node.ty position node.expr escaping)
    (hnew : ∀ value, node.expr ≠ .new (some value) := by rintro _ ⟨⟩) :
    Traces p₀ o p (record id bundle escaping) s H (Ended X id node) :=
  h.begin hserved (Traces.record hserved.fresh hresult hescapes
    fun value hexpr => absurd hexpr (hnew value))

theorem typeThen {next : Ty → FlowM β} {R : β → Progress X → State → Prop}
    (hnext : Traces p₀ o p (next node.ty) s H R) :
    Traces p₀ o p ((liftM (X.env.typeOf id) : FlowM Ty) >>= next) s H R :=
  .runsThen (runs_lift_iff.2 ⟨h.typeOf, rfl⟩) hnext

/-- The rule goes on with a reference as a whole. -/
theorem wholeThen {next : Extent → FlowM β} {R : β → Progress X → State → Prop}
    (hexpr : node.expr = .addressOf target ∨ node.expr = .dereference target ∨
      ∃ subscript, node.expr = .index target subscript) (hdone : s.flowAt target ≠ none)
    (hnext : ∀ flow extent, s.flowAt target = some flow → flow.bundle.whole? = some extent →
      Traces p₀ o p (next extent) s H R) :
    Traces p₀ o p (wholeOf X.env target >>= next) s H R := by
  simp only [wholeOf, bind_assoc]
  refine .bundleThen hdone fun flow hflow => ?_
  have htarget : target ∈ node.expr.children := by
    rcases hexpr with hexpr | hexpr | ⟨subscript, hexpr⟩ <;> simp [hexpr, Expr.children]
  split
  · rename_i extent hwhole
    rw [pure_bind]
    exact hnext flow extent hflow hwhole
  · rename_i hwhole
    rw [bind_assoc]
    refine .liftThen (fun _ hfault => h.asks (.operand htarget (Env.node_of_typeOf hfault)))
      fun ty _ => ?_
    exact .faultThen (.whole (h.task [] s.context) hexpr hflow hwhole)

theorem escapingThroughThen {next : PathSet → FlowM β} {R : β → Progress X → State → Prop}
    (hdone : s.flowAt target ≠ none)
    (hnext : ∀ escaping, (X.env.tracked node.ty = .ok true → HeldBy s target escaping) →
      Traces p₀ o p (next escaping) s H R) :
    Traces p₀ o p (escapingThrough X.env node.ty target >>= next) s H R := by
  simp only [escapingThrough, bind_assoc]
  refine .liftThen (fun _ hfault => h.asks (.tracked hfault)) fun tracked htracked => ?_
  split
  · exact .escapingThen hdone fun flow hflow => hnext _ fun _ => ⟨flow, hflow, fun _ hx => hx⟩
  · rename_i hplain
    rw [pure_bind]
    refine hnext ∅ fun htracked' => ?_
    cases htracked.symm.trans htracked'
    exact absurd rfl hplain

end

/-! ## Values and places -/

/-- A member of the variable that the node names is looked up. -/
theorem lookupThen (h : Ruling X H recur position id node) {x : Path} (hexpr : node.expr = .var x)
    (harrives : H.arrives position id s) {members : List (Path × Ty)}
    (hmembers : X.env.declarations.members node.ty = .ok members)
    (hpath : path ∈ members.map Prod.fst) {next : Extent → FlowM β}
    {R : β → Progress X → State → Prop}
    (hnext : ∀ extent, s.frame.lookup? (x ++ path) = some extent →
      Traces p₀ o p (next extent) s H R) :
    Traces p₀ o p ((liftM (s.frame.get (x ++ path)) : FlowM Extent) >>= next) s H R := by
  refine .liftThen (fun fault hfault => ?_) fun extent hextent =>
    hnext extent (Frame.get_eq_ok_iff.1 hextent)
  unfold Frame.get at hfault
  split at hfault
  · cases hfault
  · rename_i hnone
    cases hfault
    exact .unseen (h.task [] s.context) hexpr harrives hmembers hpath hnone

/-- The bundle of a member, once the target has its own. -/
theorem member (h : Ruling X H recur position id node) (hserved : Served X position id node p s)
    (hexpr : node.expr = .memberAccess target name) (hdone : s.flowAt target ≠ none)
    (hescapes : Escapes X.env s node.ty position node.expr escaping) :
    Traces p₀ o p (do Flow.record id (← memberBundle X.env id target name) escaping) s H
    (Ended X id node) := by
  simp only [memberBundle, bind_assoc]
  refine .bundleThen hdone fun flow hflow => ?_
  split
  · rename_i hnone
    exact .faultThen (.member (h.task [] s.context) hexpr hflow hnone)
  · rename_i hwhole
    simp only [bind_assoc]
    refine h.typeThen
      (.liftThen (fun _ hfault => h.asks (.members hfault)) fun members hmembers => ?_)
    by_cases hsize : (flow.bundle.scopedTo (.single name)).size = members.length
    · simp only [hsize, ↓reduceIte, pure_bind]
      refine h.record hserved ?_ hescapes (by simp [hexpr])
      have hsome := (Bool.not_eq_true _).mp hwhole
      rw [hexpr]
      cases position <;> exact ⟨flow, members, hflow, rfl, hsome, hmembers, hsize⟩
    · rw [if_neg hsize]
      exact .faultThen (.count (h.task [] s.context) hexpr hflow hmembers hsize)

section

variable (h : Ruling X H recur .value id node) (hv : Visiting X H .value id node s [] p s)

include h hv

theorem operator (operands : List NodeId)
    (huses : node.expr.uses .value = operands.map fun operand => (.value, operand))
    (hresult : ∀ s bundle, untrackedBundle X.env node.ty = .ok bundle →
      Result X.env s id node.ty .value node.expr bundle)
    (hescapes : ∀ s, Escapes X.env s node.ty .value node.expr ∅)
    (hnew : ∀ value, node.expr ≠ .new (some value) := by rintro _ ⟨⟩) :
    Traces p₀ o p (operator X.env recur id operands) s H (Ended X id node) := by
  refine .bind (h.visitAll hv huses) fun _ p₁ s₁ hv => ?_
  refine h.typeThen
    (.liftThen (fun _ hfault => h.asks (.members (members_of_untrackedBundle hfault)))
    fun bundle hbundle => ?_)
  exact h.record (hv.served rfl) (hresult s₁ bundle hbundle) (hescapes s₁) hnew

theorem readVariable (hexpr : node.expr = .var path) :
    Traces p₀ o p (readVariable X.env id path) s H (Ended X id node) := by
  obtain ⟨_, ty, _⟩ := node
  cases hexpr
  refine h.typeThen
    (.liftThen (fun _ hfault => h.asks (.fields hfault)) fun fields hfields => .getThen ?_)
  obtain ⟨members, hmembers, hpaths⟩ := Declarations.map_path_of_fields hfields
  refine .bind (.entries (P := fun field entry => entry.1 = field.path ∧
    if field.tracked then s.frame.lookup? (path ++ field.path) = some entry.2
    else entry.2 = .untracked) fun field hfield => ?_) ?_
  · split
    · rename_i htracked
      refine h.lookupThen rfl hv.arrives hmembers (hpaths ▸ List.mem_map_of_mem hfield)
          fun extent hextent =>
        .pure ⟨rfl, rfl, rfl, ?_⟩
      simpa [htracked] using hextent
    · exact .pure ⟨rfl, rfl, rfl, by simp⟩
  · rintro entries _ _ ⟨rfl, rfl, hentries⟩
    refine .liftThen (fun _ hfault => h.asks (.tracked hfault)) fun tracked htracked =>
      h.record (hv.served rfl) ⟨fields, hfields, entries, hentries, rfl⟩ fun htracked' => ?_
    cases htracked.symm.trans htracked'
    simp

theorem readMember (hexpr : node.expr = .memberAccess target name) :
    Traces p₀ o p (readMember X.env recur id target name) s H (Ended X id node) := by
  obtain ⟨_, ty, _⟩ := node
  cases hexpr
  refine .bind (h.visit hv rfl) fun _ p₁ s₁ hvisit => ?_
  have hdone := hvisit.1.onward.done (.value, target) (by simp)
  exact h.typeThen
    (h.escapingThroughThen hdone fun _ hheld => h.member (hvisit.1.served rfl) rfl hdone hheld)

theorem addressOf (hexpr : node.expr = .addressOf target) :
    Traces p₀ o p (addressOf X.env recur id target) s H (Ended X id node) := by
  obtain ⟨_, ty, _⟩ := node
  cases hexpr
  refine .bind (h.visit hv rfl) fun _ p₁ s₁ hvisit => ?_
  have hdone := hvisit.1.onward.done (.place, target) (by simp)
  have hserved := hvisit.1.served rfl
  refine h.wholeThen (.inl rfl) hdone fun flow extent hflow hwhole => ?_
  by_cases hnone : extent.slot.isNone = true
  · rw [if_pos hnone]
    exact .faultThen (.storage (h.task [] s₁.context) rfl hflow hwhole hnone)
  · rw [if_neg hnone]
    refine h.begin hserved ?_
    have hnone := (Bool.not_eq_true _).mp hnone
    -- Whether or not the place is in a slot, the slot is exposed when the node is recorded.
    by_cases hslot : extent.slot.isSlot = true
    · rw [if_pos hslot]
      refine .stepThen (a := ()) (runs_expose_iff.2 rfl)
        (.expose (.address rfl rfl hflow hwhole hslot)) ?_
      exact .escapingThen hdone fun held hheld => .record hserved.fresh
        ⟨flow, extent, hflow, hwhole, hnone, fun _ => by simp [State.withContext], rfl⟩
        ⟨held, hheld, fun _ hx => hx⟩
    · rw [if_neg hslot]
      exact .escapingThen hdone fun held hheld => .record hserved.fresh
        ⟨flow, extent, hflow, hwhole, hnone, fun hslot' => absurd hslot' hslot, rfl⟩
        ⟨held, hheld, fun _ hx => hx⟩

end

theorem nameVariable (h : Ruling X H recur .place id node)
    (hv : Visiting X H .place id node s [] p s) (hexpr : node.expr = .var path) :
    Traces p₀ o p (nameVariable X.env id path) s H (Ended X id node) := by
  obtain ⟨_, ty, _⟩ := node
  cases hexpr
  refine h.typeThen
    (.liftThen (fun _ hfault => h.asks (.members hfault)) fun members hmembers => .getThen ?_)
  refine .bind (.entries (P := fun member entry => entry.1 = member.1 ∧
    s.frame.lookup? (path ++ member.1) = some entry.2) fun member hmember => ?_) ?_
  · exact h.lookupThen rfl hv.arrives hmembers (List.mem_map_of_mem hmember) fun extent hextent =>
      .pure ⟨rfl, rfl, rfl, hextent⟩
  · rintro entries _ _ ⟨rfl, rfl, hentries⟩
    exact h.record (hv.served rfl) ⟨members, hmembers, entries, hentries, rfl⟩
      ExtTreeSet.mem_insert_self

theorem nameMember (h : Ruling X H recur .place id node) (hv : Visiting X H .place id node s [] p s)
    (hexpr : node.expr = .memberAccess target name) :
    Traces p₀ o p (nameMember X.env recur id target name) s H (Ended X id node) := by
  obtain ⟨_, ty, _⟩ := node
  cases hexpr
  refine .bind (h.visit hv rfl) fun _ p₁ s₁ hvisit => ?_
  have hdone := hvisit.1.onward.done (.place, target) (by simp)
  exact .escapingThen hdone fun flow hflow =>
    h.member (hvisit.1.served rfl) rfl hdone ⟨flow, hflow, fun _ hx => hx⟩

theorem readThrough (h : Ruling X H recur .value id node) (hserved : Served X .value id node p s)
    (hdone : s.flowAt target ≠ none) {pointer : Extent}
    (hpointer : Pointer s node.expr kind pointer) :
    Traces p₀ o p (readThrough X.env kind id target pointer) s H (Ended X id node) := by
  refine h.typeThen (h.escapingThroughThen hdone fun escaping _ => ?_)
  refine .resolveThen (fun _ hfault => h.asks (.fields hfault)) ?_
    fun home fields bundle hhome hfields hbundle => h.record hserved
      (.of_accessed hpointer hfields (.resolved (by simp) hhome hbundle))
      (.of_pointer hpointer _) hpointer.ne_new
  refine .liftThen (fun _ hfault => h.asks (.fields hfault)) fun fields hfields =>
    h.begin hserved ?_
  refine .bind (.mapM (fun before entries p' s' => p' = ⟨some (h.task [] s.context),
    p.joins⟩ ∧ Augments s s' ∧ (entries = before.map fun field => (field.path,
      if field.tracked then .ofValue (X.env.readAt kind id field) else .untracked)) ∧
    ∀ field ∈ before, field.tracked = true → X.env.readAt kind id field ∈ s'.context.roots)
    ⟨rfl, .refl s, rfl, by simp⟩ fun before field after hsplit entries p₁ s₁ hI => ?_) ?_
  · obtain ⟨rfl, haugments, rfl, hregions⟩ := hI
    split
    · rename_i htracked
      refine .newRootThen ?_
      have haugments :=
        haugments.trans (.region s₁ (X.env.tempPath kind id ++ field.path) .temporary)
      refine .storeThen (.read rfl (haugments.pointer hpointer) hfields (by simp [hsplit]) htracked
        ExtTreeSet.mem_insert_self) ?_
      refine .pure ⟨rfl, haugments.trans (.store _ _ _ _), by simp [htracked, Env.readAt],
        fun other hother htracked' => ExtTreeSet.mem_insert.2 ?_⟩
      rcases List.mem_append.1 hother with hbefore | hself
      · exact .inr (hregions other hbefore htracked')
      · obtain rfl := List.mem_singleton.1 hself
        exact .inl (by simp [Env.readAt])
    · rename_i htracked
      refine .pure ⟨rfl, haugments, by simp [htracked], fun other hother htracked' => ?_⟩
      rcases List.mem_append.1 hother with hbefore | hself
      · exact hregions other hbefore htracked'
      · obtain rfl := List.mem_singleton.1 hself
        exact absurd htracked' htracked
  · rintro _ _ s₁ ⟨rfl, haugments, rfl, hregions⟩
    exact .record (fun hacyclic => (haugments.flowAt id).trans (hserved.fresh hacyclic))
      (.of_accessed (haugments.pointer hpointer) hfields (.read hregions))
      (.of_pointer (haugments.pointer hpointer) _)
      fun value hexpr => absurd hexpr (hpointer.ne_new value)

theorem writeThrough (h : Ruling X H recur .place id node) (hserved : Served X .place id node p s)
    (hdone : s.flowAt target ≠ none) {pointer : Extent}
    (hpointer : Pointer s node.expr kind pointer) :
    Traces p₀ o p (writeThrough X.env kind id target pointer) s H (Ended X id node) := by
  refine h.typeThen (.escapingThen hdone fun held _ => ?_)
  refine .resolveThen (fun _ hfault => h.asks (.fields hfault)) ?_
    fun home fields bundle hhome hfields hbundle => h.record hserved
      (.of_accessed hpointer hfields (.resolved (by simp) hhome hbundle))
      (.of_pointer hpointer _) hpointer.ne_new
  refine .getThen
    (.liftThen (fun _ hfault => h.asks (.fields hfault)) fun fields hfields => h.begin hserved ?_)
  -- The holders are read off the graph before any storing.
  have hholder : ∀ (holder : Lifetime),
    holder ∈ (s.context.graph.supportOf pointer.value).toList →
      s.context.graph.Reaches pointer.value holder := fun holder hmem =>
    Outlives.reaches_iff.2 (.inr (ExtTreeSet.mem_toList.1 hmem))
  refine .bind (.mapM (fun before entries p' s' => p' = ⟨some (h.task [] s.context),
    p.joins⟩ ∧ Augments s s' ∧ entries = before.map fun field =>
      (field.path, X.env.behind kind id pointer field))
    ⟨rfl, .refl s, rfl⟩ fun before field after hsplit entries p₁ s₁ hI => ?_) ?_
  · obtain ⟨rfl, haugments, rfl⟩ := hI
    have hfield : field ∈ fields := by simp [hsplit]
    split
    · rename_i htracked
      refine .bind (.forM (fun _ p' s' => p' = ⟨some (h.task [] s.context), p.joins⟩ ∧
        Augments s s') ⟨rfl, haugments⟩ fun done holder rest hholders p₂ s₂ hI => ?_) ?_
      · obtain ⟨rfl, haugments₂⟩ := hI
        exact .store (.written rfl (haugments₂.pointer hpointer) hfields hfield htracked
          (hholder holder (by simp [hholders]))) ⟨rfl, haugments₂.trans (.store _ _ _ _)⟩
      · rintro _ _ s₂ ⟨rfl, haugments₂⟩
        refine .storeThen (.written rfl (haugments₂.pointer hpointer) hfields hfield htracked
          (Outlives.Reaches.refl _ _)) ?_
        refine .pure ⟨rfl, haugments₂.trans (.store _ _ _ _), ?_⟩
        simp [htracked, Env.behind, Env.writtenAt]
    · rename_i htracked
      exact .pure ⟨rfl, haugments, by simp [htracked, Env.behind]⟩
  · rintro _ _ s₁ ⟨rfl, haugments, rfl⟩
    exact .record (fun hacyclic => (haugments.flowAt id).trans (hserved.fresh hacyclic))
      (.of_accessed (haugments.pointer hpointer) hfields .written)
      (.of_pointer (haugments.pointer hpointer) _)
      fun value hexpr => absurd hexpr (hpointer.ne_new value)

theorem dereference (h : Ruling X H recur position id node)
    (hv : Visiting X H position id node s [] p s) (hexpr : node.expr = .dereference target) :
    Traces p₀ o p (dereference X.env recur position id target) s H (Ended X id node) := by
  obtain ⟨_, ty, _⟩ := node
  cases hexpr
  refine .bind (h.visit hv rfl) fun _ p₁ s₁ hvisit => ?_
  have hdone := hvisit.1.onward.done (.value, target) (by simp)
  refine h.wholeThen (.inr (.inl rfl)) hdone fun flow pointer hflow hwhole => ?_
  cases position with
  | value => exact h.readThrough (hvisit.1.served rfl) hdone (.dereference hflow hwhole)
  | place => exact h.writeThrough (hvisit.1.served rfl) hdone (.dereference hflow hwhole)

theorem index (h : Ruling X H recur position id node) (hv : Visiting X H position id node s [] p s)
    {subscript : NodeId} (hexpr : node.expr = .index target subscript) :
    Traces p₀ o p (index X.env recur position id target subscript) s H (Ended X id node) := by
  obtain ⟨_, ty, _⟩ := node
  cases hexpr
  refine .bind (h.visit hv rfl) fun _ p₁ s₁ hvisit => ?_
  refine .bind (h.visit hvisit.1 rfl) fun _ p₂ s₂ hvisit => ?_
  have hdone := hvisit.1.onward.done (.value, target) (by simp)
  refine h.wholeThen (.inr (.inr ⟨subscript, rfl⟩)) hdone fun flow pointer hflow hwhole => ?_
  cases position with
  | value => exact h.readThrough (hvisit.1.served rfl) hdone (.index hflow hwhole)
  | place => exact h.writeThrough (hvisit.1.served rfl) hdone (.index hflow hwhole)

/-! ## Aggregates, heap memory and calls -/

theorem initializeMembers (h : Ruling X H recur .value id node)
    (hexpr : node.expr = .new (some value)) (hflow : s.flowAt value = some flow)
    (hregion : X.env.allocation id ∈ s.context.roots) {ty : Ty}
    (hty : X.env.typeOf value = .ok ty)
    (hfields : X.env.fields ty = .ok fields) {span : Span} {task : Task X}
    (htask : task = h.task [] s.context) : Traces p₀ o ⟨some task, joins⟩
      (fields.forM (initializeMember X.env (X.env.allocation id) flow.bundle span)) s H
      fun _ p' s' => p' = ⟨some task, joins⟩ ∧ Augments s s' := by
  refine .forM (fun _ p' s' => p' = ⟨some task, joins⟩ ∧ Augments s s') ⟨rfl, .refl s⟩
    fun before field after hsplit p₁ s₁ hI => ?_
  obtain ⟨rfl, haugments⟩ := hI
  unfold initializeMember
  split
  · rename_i extent hextent
    split
    · exact .pure ⟨rfl, haugments⟩
    · refine .bind (Q := fun _ p' s' => p' = ⟨some task, joins⟩ ∧ Augments s s')
        (.check fun _ => ⟨rfl, haugments.trans (.heapWrites _ _)⟩) ?_
      rintro _ _ s₂ ⟨rfl, haugments⟩
      have hstores : Stores s₂ task (X.env.allocation id) extent.value := by
        subst htask
        exact .initialized rfl hexpr ((haugments.flowAt _).trans hflow) hextent
          (haugments.roots _ hregion) hty hfields (by simp [hsplit])
      exact .store hstores ⟨rfl, haugments.trans (.store _ _ _ _)⟩
  · exact .pure ⟨rfl, haugments⟩

/-- The memory has got the fields when all of them were written. -/
theorem fills_of_initializes {fields : List Field} {ty : Ty}
    (h : Initializes X.env (X.env.allocation id) flow.bundle fields s s')
    (hflow : s'.flowAt value = some flow) (hty : X.env.typeOf value = .ok ty)
    (hfields : X.env.fields ty = .ok fields) :
    Fills X.env s.context.heapWrites.length s' id value ∧ Cleared X.env s' value := by
  have hyields : ∀ {x}, Yields X.env s' value x → ∃ field ∈ fields, ∃ extent,
      flow.bundle[field.path]? = some extent ∧ extent.value = x ∧ x.isNone = false := by
    rintro x ⟨flow', ty', fields', field, extent, hflow', hty', hfields', hfield, hrest⟩
    cases hflow.symm.trans hflow'
    cases hty.symm.trans hty'
    cases hfields.symm.trans hfields'
    exact ⟨field, hfield, extent, hrest⟩
  refine ⟨⟨by simp [hflow], fun x hx => ?_⟩, fun hcheck x hx => ?_⟩
  · obtain ⟨field, hfield, extent, hextent, rfl, hsome⟩ := hyields hx
    refine ⟨(h.logged field hfield extent hextent hsome).1,
      fun hne => (h.holds _ _).2 (.inr ?_)⟩
    exact ⟨rfl, ⟨hne, hsome, rfl⟩, field, hfield, extent, hextent, rfl⟩
  · obtain ⟨field, hfield, extent, hextent, rfl, hsome⟩ := hyields hx
    exact h.not_mem_rootsOf hcheck rfl hfield hextent hsome

/-- What a call knows about an argument is what the argument has recorded. -/
def Argues (env : Env) (s : State) (id : NodeId) (argument : Argument) : Prop :=
  ∃ flow ty, s.flowAt id = some flow ∧ argument.values = flow.bundle.tracked ∧
    env.typeOf id = .ok ty ∧ env.tracked ty = .ok argument.tracked

theorem mixArguments (h : Ruling X H recur .value id node) {function : Path}
    {arguments : List NodeId} (hexpr : node.expr = .call function arguments)
    {knowledge : List Argument} (hargues : List.Forall₂ (Argues X.env s) arguments knowledge)
    {task : Task X} {since : Context} (htask : task = h.task [] since) :
    Traces p₀ o ⟨some task, joins⟩ (mixArguments knowledge) s H
      fun _ p' s' => p' = ⟨some task, joins⟩ ∧ Augments s s' := by
  have hat : ∀ entry ∈ knowledge.zipIdx, ∃ argument, arguments[entry.2]? = some argument ∧
      Argues X.env s argument entry.1 := by
    intro entry hentry
    have hget := List.mem_zipIdx_iff_getElem?.1 hentry
    obtain ⟨hlt, hget⟩ := List.getElem?_eq_some_iff.1 hget
    have hlt' : entry.2 < arguments.length := by rwa [hargues.length_eq]
    refine ⟨arguments[entry.2], by simp [hlt'], ?_⟩
    have hrel := List.Forall₂.get hargues hlt' hlt
    simpa [hget] using hrel
  refine .forM (fun _ p' s' => p' = ⟨some task, joins⟩ ∧ Augments s s') ⟨rfl, .refl s⟩
    fun before stored after hstored p₁ s₁ hI => ?_
  obtain ⟨rfl, haugments⟩ := hI
  refine .forM (fun _ p' s' => p' = ⟨some task, joins⟩ ∧ Augments s s') ⟨rfl, haugments⟩
    fun before' container after' hcontainer p₂ s₂ hI => ?_
  obtain ⟨rfl, haugments⟩ := hI
  obtain ⟨storedId, hstoredId, storedFlow, storedTy, hstoredFlow, hvalues, hstoredTy⟩ :=
    hat stored (by simp [hstored])
  obtain ⟨containerId, hcontainerId, containerFlow, ty, hcontainerFlow, hholders,
      hty, htracked⟩ :=
    hat container (by simp [hcontainer])
  dsimp only
  split
  · rename_i hcond
    rw [hcond.2] at htracked
    refine .forM (fun _ p' s' => p' = ⟨some task, joins⟩ ∧ Augments s s') ⟨rfl, haugments⟩
      fun done holder rest hholder p₃ s₃ hI => ?_
    obtain ⟨rfl, haugments⟩ := hI
    refine .forM (fun _ p' s' => p' = ⟨some task, joins⟩ ∧ Augments s s') ⟨rfl, haugments⟩
      fun done' value rest' hvalue p₄ s₄ hI => ?_
    obtain ⟨rfl, haugments⟩ := hI
    have hstores : Stores s₄ task holder value := by
      subst htask
      exact .mixed rfl hexpr hcond.1 hstoredId hcontainerId ((haugments.flowAt _).trans hstoredFlow)
        ((haugments.flowAt _).trans hcontainerFlow) hty htracked (hvalues ▸ by simp [hvalue])
        (hholders ▸ by simp [hholder]) ⟨storedTy, _, hstoredTy⟩
    exact .store hstores ⟨rfl, haugments.trans (.store _ _ _ _)⟩
  · exact .pure ⟨rfl, haugments⟩

section

variable (h : Ruling X H recur .value id node) (hv : Visiting X H .value id node s [] p s)

include h hv

theorem allocate {initializer : Option NodeId} (hexpr : node.expr = .new initializer) :
    Traces p₀ o p (allocate X.env recur id initializer) s H (Ended X id node) := by
  obtain ⟨_, ty, _⟩ := node
  cases hexpr
  refine .newRootThen ?_
  have hv : Visiting X H .value id _ s [] p (s.withContext
      { s.context with roots := s.context.roots.insert (X.env.allocation id) }) :=
    hv.reframe (fun _ hpath => hpath) (fun hin => hin) fun _ => rfl
  have hregion : X.env.allocation id ∈ s.context.roots.insert (X.env.allocation id) :=
    ExtTreeSet.mem_insert_self
  cases initializer with
  | none => exact h.record (hv.served rfl) ⟨rfl, hregion⟩ trivial
  | some value =>
    refine .bind (h.visit hv rfl) fun _ p₂ s₂ hvisit => ?_
    have hregion := hvisit.2.grows.roots _ hregion
    have hvalue : value ∈ [value] := List.mem_singleton_self _
    refine .liftThen (fun _ hfault => h.asks (.operand hvalue hfault)) fun initial hinitial => ?_
    refine .bundleThen (hvisit.1.onward.done (.value, value) (by simp)) fun flow hflow => ?_
    refine .liftThen
      (fun _ hfault => h.asks (.operandFields hvalue (Env.typeOf_of_node hinitial) hfault))
      fun fields hfields => ?_
    have hty := Env.typeOf_of_node hinitial
    refine h.begin (hvisit.1.served rfl)
      (.bind (h.initializeMembers rfl hflow hregion hty hfields rfl).andRuns ?_)
    rintro _ _ s₃ ⟨⟨rfl, haugments⟩, hrun⟩
    refine .record (fun hacyclic => (haugments.flowAt id).trans (hvisit.1.fresh hacyclic))
      ⟨rfl, haugments.roots _ hregion⟩ trivial fun other hother => ?_
    cases hother
    exact fills_of_initializes (runs_initializeMembers hrun)
      ((haugments.flowAt value).trans hflow) hty hfields

theorem structLiteral {fields : List (String × NodeId)}
    (hexpr : node.expr = .structLiteral fields) :
    Traces p₀ o p (structLiteral X.env recur id fields) s H (Ended X id node) := by
  obtain ⟨_, ty, _⟩ := node
  cases hexpr
  have huses : Expr.uses .value (.structLiteral fields) = fields.map fun field =>
      (.value, field.2) := by
    simp [Expr.uses, Expr.children]
  refine .bind (h.visitAll hv huses) fun _ p₁ s₁ hv => ?_
  have hserved := hv.served rfl
  have hdone : ∀ field ∈ fields, s₁.flowAt field.2 ≠ none := fun field hfield =>
    hv.onward.done (.value, field.2) (by rw [huses]; exact List.mem_map.2 ⟨field, hfield, rfl⟩)
  refine h.typeThen
    (.liftThen (fun _ hfault => h.asks (.tracked hfault)) fun tracked htracked => ?_)
  cases tracked with
  | false =>
    refine .liftThen (fun _ hfault => h.asks (.members (members_of_untrackedBundle hfault)))
        fun bundle hbundle =>
      h.record hserved (.inl ⟨htracked, hbundle⟩) fun htracked' => ?_
    cases htracked.symm.trans htracked'
  | true =>
    refine h.begin hserved ?_
    refine .bind (.mapM (fun before entries p' s' => p' = ⟨some (h.task [] s₁.context),
      p₁.joins⟩ ∧ Augments s₁ s' ∧ FieldParts s₁ before entries ∧
      ∀ field ∈ before, ∀ flow, s₁.flowAt field.2 = some flow →
      ∀ data ∈ flow.bundle.tracked, s'.context.graph.Near (X.env.literalAt id) data)
      ⟨rfl, .refl s₁, .nil, by simp⟩ fun before field after hsplit entries p₂ s₂ hI =>
        ?_) ?_
    · obtain ⟨rfl, haugments, hentries, hholds⟩ := hI
      have hfield : field ∈ fields := by simp [hsplit]
      unfold insertField
      refine .liftThen
        (fun _ hfault => h.asks (.operand (List.mem_map_of_mem hfield) (Env.node_of_typeOf hfault)))
        fun ty _ => .bundleThen (haugments.flowAt _ ▸ hdone field hfield) fun flow hflow => ?_
      refine .bind (.forM (fun done p' s' => p' = ⟨some (h.task [] s₁.context),
        p₁.joins⟩ ∧ Augments s₂ s' ∧
        ∀ data ∈ done, s'.context.graph.Near (X.env.literalAt id) data)
        ⟨rfl, .refl s₂, by simp⟩ fun done data rest hdata p₃ s₃ hI => ?_) ?_
      · obtain ⟨rfl, haugments₂, hdone⟩ := hI
        have hmem : data ∈ flow.bundle.tracked := by simp [hdata]
        refine .store
          (.inserted rfl rfl (by simp [hsplit]) ((haugments₂.flowAt _).trans hflow) hmem
          htracked) ⟨rfl, haugments₂.trans (.store _ _ _ _), fun other hother => ?_⟩
        rcases List.mem_append.1 hother with hother | hother
        · exact (hdone other hother).mono (Outlives.below_store _ _ _ _)
        · obtain rfl := List.mem_singleton.1 hother
          obtain ⟨-, -, -, -, hsome⟩ := Bundle.mem_tracked_iff.1 hmem
          exact Outlives.near_store hsome rfl _
      · rintro _ _ s₃ ⟨rfl, haugments₂, hdone⟩
        refine .pure
          ⟨rfl, haugments.trans haugments₂, List.rel_append hentries (.cons ?_ .nil), ?_⟩
        · exact ⟨flow, (haugments.flowAt _).symm.trans hflow, rfl⟩
        · intro other hother found hfound data hdata
          rcases List.mem_append.1 hother with hother | hother
          · exact (hholds other hother found hfound data hdata).mono haugments₂.graph
          · obtain rfl := List.mem_singleton.1 hother
            rw [← haugments.flowAt, hflow] at hfound
            cases hfound
            exact hdone data hdata
    · rintro entries _ s₂ ⟨rfl, haugments, hentries, hholds⟩
      refine .bind
        (.entries (P := fun field escaping => ∃ flow, s₂.flowAt field.2 = some flow ∧
        flow.escaping = escaping) fun field hfield => ?_) ?_
      · obtain ⟨flow, hflow⟩ :=
          Option.ne_none_iff_exists'.1 (haugments.flowAt field.2 ▸ hdone field hfield)
        exact .of_runs (runs_escapingOf_iff.2 ⟨flow, hflow, rfl, rfl⟩)
          ⟨rfl, rfl, flow, hflow, rfl⟩
      rintro escaping _ _ ⟨rfl, rfl, hescaping⟩
      refine .liftThen (fun _ hfault => h.asks (.fields hfault)) fun members hmembers =>
        .record (fun hacyclic => (haugments.flowAt id).trans (hserved.fresh hacyclic)) ?_ ?_
      · refine .inr
          ⟨htracked, entries, members, hmembers, hentries.imp fun field part hpart => ?_, rfl,
          fun field hfield flow hflow =>
          hholds field hfield flow ((haugments.flowAt _).symm.trans hflow)⟩
        obtain ⟨flow, hflow, rfl⟩ := hpart
        exact ⟨flow, (haugments.flowAt _).trans hflow, rfl⟩
      · intro _ field hfield
        obtain ⟨part, hpart, flow, hflow, rfl⟩ := forall₂_mem_left hescaping hfield
        exact ⟨flow, hflow, fun x hx => mem_foldl_union_iff.2 (.inr ⟨_, hpart, hx⟩)⟩

theorem call {function : Path} {arguments : List NodeId}
    (hexpr : node.expr = .call function arguments) :
    Traces p₀ o p (call X.env recur id function arguments) s H (Ended X id node) := by
  obtain ⟨_, ty, _⟩ := node
  cases hexpr
  refine .bind (h.visitAll hv rfl) fun _ p₁ s₁ hv => ?_
  have hserved := hv.served rfl
  by_cases hfunction : function ∈ X.env.declarations.functions
  · rw [if_pos hfunction]
    refine .bind (.entries (P := Argues X.env s₁) fun argument hargument => ?_) ?_
    · refine .bundleThen (hv.onward.done (.value, argument) (List.mem_map_of_mem hargument))
        fun flow hflow => ?_
      refine .liftThen (fun _ hfault => h.asks (.operand hargument (Env.node_of_typeOf hfault)))
        fun ty hty => ?_
      exact .liftThen (fun _ hfault => h.asks (.operandTracked hargument hty hfault))
          fun tracked htracked =>
        .pure ⟨rfl, rfl, flow, ty, hflow, rfl, hty, htracked⟩
    · rintro knowledge _ _ ⟨rfl, rfl, hargues⟩
      refine h.begin hserved (.bind (h.mixArguments rfl hargues rfl) ?_)
      rintro _ _ s₂ ⟨rfl, haugments⟩
      have hfresh : X.Acyclic → s₂.flowAt id = none := fun hacyclic =>
        (haugments.flowAt id).trans (hserved.fresh hacyclic)
      refine h.typeThen
        (.liftThen (fun _ hfault => h.asks (.fields hfault)) fun fields hfields => ?_)
      split
      · refine .stepThen (a := ()) (runs_discard_iff.2 ⟨_, runs_newRoot_iff.2 ⟨rfl, rfl⟩⟩)
          (.region _ _) ?_
        exact .record hfresh
          ⟨fields, hfields, rfl, fun _ _ _ => ExtTreeSet.mem_insert_self⟩ trivial
      · rename_i hany
        refine .record hfresh
          ⟨fields, hfields, rfl, fun field hfield htracked => absurd ?_ hany⟩ trivial
        exact List.any_eq_true.2 ⟨field, hfield, htracked⟩
  · rw [if_neg hfunction]
    exact .faultThen (.callee (h.task [] s₁.context) rfl hfunction)

end

/-! ## Declarations and assignments -/

theorem declareMember {task : Task X} (hposition : task.position = .value)
    (hexpr : task.node.expr = .declaration path value)
    (hflow : s.flowAt value = some flow) (hty : X.env.typeOf value = .ok ty)
    (hfields : X.env.fields ty = .ok fields) (hnext : NextField fields task.done field)
    (hfield : field ∈ fields) :
    Traces p₀ o ⟨some task, joins⟩ (declareMember path flow.bundle field) s H
      fun _ p' s' => p' = ⟨some (task.did field.path), joins⟩ ∧
      (∀ id, s'.flowAt id = s.flowAt id) ∧
        ∃ extent, s'.frame = s.frame.declare (path ++ field.path) extent := by
  have hdeclaring : ∀ s' : State, (∀ id, s'.flowAt id = s.flowAt id) →
      Declaring s' task path field flow.bundle[field.path]? := fun s' hsame =>
    ⟨hposition, value, flow, ty, fields, hexpr, (hsame _).trans hflow, hty, hfields, hnext, rfl⟩
  unfold Flow.declareMember
  refine .newRootThen ?_
  split
  · rename_i htracked
    split
    · rename_i initial hinitial
      rw [hinitial] at hdeclaring
      refine .of_step (a := ()) ?_ (.declared (hdeclaring _ fun _ => rfl) htracked
        (by simp [State.withContext])) ⟨rfl, fun _ => rfl, _, rfl⟩
      simp [State.introduced, State.withContext, State.withGraph, Lifetime.first]
    · rename_i hnone
      exact .fault (.initializer task hexpr hflow hty hfields hfield
        (Option.eq_none_iff_forall_ne_some.2 hnone))
  · rename_i htracked
    exact .of_step (a := ()) (runs_declare_iff.2 rfl) (.plain (hdeclaring _ fun _ => rfl)
      ((Bool.not_eq_true _).mp htracked) (by simp [State.withContext])) ⟨rfl,
        fun _ => rfl, _, rfl⟩

theorem declareVariable (h : Ruling X H recur .value id node)
    (hv : Visiting X H .value id node s [] p s) (hexpr : node.expr = .declaration path value) :
    Traces p₀ o p (declareVariable X.env recur id path value) s H (Ended X id node) := by
  obtain ⟨_, ty, _⟩ := node
  cases hexpr
  refine .bind (h.visit hv rfl) fun _ p₁ s₁ hvisit => ?_
  have hvalue : value ∈ [value] := List.mem_singleton_self _
  have hdone := hvisit.1.onward.done (.value, value) (by simp)
  refine .bundleThen hdone fun flow hflow => ?_
  refine .liftThen (fun _ hfault => h.asks (.operand hvalue (Env.node_of_typeOf hfault)))
    fun ty hty => ?_
  refine .liftThen (fun _ hfault => h.asks (.operandFields hvalue hty hfault))
    fun fields hfields => ?_
  refine h.begin (hvisit.1.served rfl) (.bind (.forM (fun before p' s' => p' = ⟨some (h.task
    (before.map Field.path) s₁.context), p₁.joins⟩ ∧
      (∀ id, s'.flowAt id = s₁.flowAt id) ∧
      ∀ field ∈ before, ∃ extent, s'.frame.lookup? (path ++ field.path) = some extent)
    ⟨rfl, fun _ => rfl, by simp⟩ fun before field after hsplit p₂ s₂ hI => ?_) ?_)
  · obtain ⟨rfl, hsame, hvisible⟩ := hI
    refine (declareMember rfl rfl ((hsame _).trans hflow) hty hfields
      ⟨before, after, hsplit, rfl⟩ (by simp [hsplit])).weaken fun _ p' s' hp' => ?_
    obtain ⟨hp', hflow', extent, hframe⟩ := hp'
    refine ⟨by
      rw [hp']; simp [Task.did], fun id => (hflow' id).trans (hsame id), fun other hother => ?_⟩
    -- The fields before stay visible, and this one has become so.
    rw [hframe, Frame.lookup?_declare]
    split
    · exact ⟨extent, rfl⟩
    · rename_i hne
      rcases List.mem_append.1 hother with hbefore | hself
      · exact hvisible other hbefore
      · cases List.mem_singleton.1 hself
        exact absurd rfl hne
  · rintro _ _ s₂ ⟨rfl, hsame, hvisible⟩
    exact .escapingThen (hsame value ▸ hdone) fun held hheld =>
        .captureThen fun captures hcaptures =>
      .record (fun hacyclic => (hsame id).trans (hvisit.1.fresh hacyclic))
        ⟨rfl, ty, fields, hty, hfields, hvisible⟩ ⟨held, hheld, hcaptures⟩

/-- What was visible before the own part of an assignment still is. -/
structure Still (s₀ s s' : State) : Prop where
  flowAt : ∀ id, s'.flowAt id = s.flowAt id
  visible : (∀ path, (∃ extent, s₀.frame.lookup? path = some extent) →
    ∃ extent, s.frame.lookup? path = some extent) →
    ∀ path, (∃ extent, s₀.frame.lookup? path = some extent) →
    ∃ extent, s'.frame.lookup? path = some extent

theorem Still.of_eq {s₀ : State} (hflow : ∀ id, s'.flowAt id = s.flowAt id)
    (hframe : s'.frame = s.frame) : Still s₀ s s' :=
  ⟨hflow, fun hvisible => hframe ▸ hvisible⟩

/-- The variable in a slot gets a new version, or would get one if it were visible. -/
theorem rebindLocal {task : Task X} {place new : Extent}
    (hassigning : Assigning s task field place new) (hslot : place.slot.isSlot = true)
    (htracked : field.tracked = true) (hstarted : Started H p₀ o s₀ s task)
    (hvisible : s₀.frame.VisibleIn s.frame) :
    Traces p₀ o ⟨some task, joins⟩ (rebindLocal place.slot new.value field.ty) s H
      fun _ p' s' => p' = ⟨some (task.did field.path), joins⟩ ∧ Still s₀ s s' := by
  intro hsteps
  cases hrun : Flow.rebindLocal place.slot new.value field.ty s with
  | ok u s' =>
    obtain ⟨frame, hframe, rfl⟩ := runs_rebindLocal_adopted hrun
    refine ⟨_, hsteps.step (.rebound hassigning hslot htracked hframe), rfl, fun _ => rfl,
      fun hvisible path hpath => ?_⟩
    rw [show (s.adopted _ _ frame).frame = frame from rfl, Frame.lookup?_rebind hframe]
    split
    · exact ⟨_, rfl⟩
    · exact hvisible path hpath
  | error abort s' =>
    have haborts : Aborts (Flow.rebindLocal place.slot new.value field.ty) s abort s' := hrun
    rw [rebindLocal_eq, aborts_bind_iff] at haborts
    rcases haborts with hrenew | ⟨version, s₁, hrenew, hadopt⟩
    · exact absurd hrenew not_aborts_renew
    · obtain ⟨rfl, rfl, hnone⟩ := aborts_adopt hadopt
      obtain ⟨rfl, rfl⟩ := runs_renew hrenew
      refine ⟨_, .here (hsteps.step (.hidden hassigning hslot htracked)), .of_fault ?_⟩
      exact .hidden task ⟨hassigning.position, hassigning.operands⟩ hslot
        ⟨hstarted.reached, hstarted.arrives, hstarted.target⟩ hvisible hnone

theorem assignMember {task : Task X} {place new : Extent} {span : Span}
    (hassigning : ∀ s' : State, (∀ id, s'.flowAt id = s.flowAt id) →
      Assigning s' task field place new) (hstarted : Started H p₀ o s₀ s task)
    (hvisible : s₀.frame.VisibleIn s.frame) :
    Traces p₀ o ⟨some task, joins⟩ (assignMember X.env place new span field) s H
      fun _ p' s' => p' = ⟨some (task.did field.path), joins⟩ ∧ Still s₀ s s' := by
  have hskip : Traces p₀ o ⟨some task, joins⟩ (Pure.pure () : FlowM Unit) s H fun _ p' s' =>
      p' = ⟨some (task.did field.path), joins⟩ ∧ Still s₀ s s' :=
    .of_step (a := ()) (runs_pure_iff.2 ⟨rfl, rfl⟩) (.skip field.path)
      ⟨rfl, .of_eq (fun _ => rfl) rfl⟩
  unfold Flow.assignMember
  split
  · rename_i hslot
    split
    · rename_i htracked
      exact rebindLocal (hassigning s fun _ => rfl) hslot htracked hstarted hvisible
    · exact hskip
  · rename_i hslot
    split
    · exact hskip
    · rename_i hnone
      refine .bind (Q := fun _ p' s' => p' = ⟨some task, joins⟩ ∧
        (∀ id, s'.flowAt id = s.flowAt id) ∧
        s'.frame = s.frame) (.check fun _ => ⟨rfl, fun _ => rfl, rfl⟩) ?_
      rintro _ _ s₁ ⟨rfl, hsame, hframe⟩
      exact .of_step (a := ()) (runs_store_iff.2 rfl) (.through _ (hassigning s₁ hsame)
        ((Bool.not_eq_true _).mp hslot) ((Bool.not_eq_true _).mp hnone)) ⟨rfl,
          .of_eq hsame hframe⟩

theorem assign (h : Ruling X H recur .value id node) (hv : Visiting X H .value id node s [] p s)
    (hexpr : node.expr = .assignment target value) :
    Traces p₀ o p (assign X.env recur id target value) s H (Ended X id node) := by
  obtain ⟨_, ty, _⟩ := node
  cases hexpr
  intro hentry
  refine (?_ : Traces p₀ o p (Flow.assign X.env recur id target value) s H (Ended X id _)) hentry
  have htarget : target ∈ [target, value] := by simp
  have hvalue : value ∈ [target, value] := by simp
  refine .bind (h.visit hv rfl) fun _ p₁ s₁ htargetVisit => ?_
  refine .bind (h.visit htargetVisit.1 rfl) fun _ p₂ s₂ hvisit => ?_
  have hv := hvisit.1
  have hdone := hv.onward.done (.value, value) (by simp)
  have hkept : s₂.flowAt target = s₁.flowAt target := by
    obtain ⟨flow, hflow⟩ :=
      Option.ne_none_iff_exists'.1 (htargetVisit.1.onward.done (.place, target) (by simp))
    rw [hflow, hvisit.2.grows.recorded _ _ hflow]
  refine .bundleThen (hv.onward.done (.place, target) (by simp)) fun places hplaces => ?_
  refine .bundleThen hdone fun assigned hassigned => ?_
  refine .liftThen (fun _ hfault => h.asks (.operand hvalue hfault)) fun valueNode _ => ?_
  refine .liftThen (fun _ hfault => h.asks (.operand htarget (Env.node_of_typeOf hfault)))
    fun ty hty => ?_
  refine .liftThen (fun _ hfault => h.asks (.operandFields htarget hty hfault))
    fun fields hfields => ?_
  refine h.begin (hv.served rfl) (.bind (.forM (fun before p' s' => p' = ⟨some (h.task
    (before.map Field.path) s₂.context), p₂.joins⟩ ∧ Still s s₂ s')
    ⟨rfl, .of_eq (fun _ => rfl) rfl⟩ fun before field after hsplit p₃ s₃ hI => ?_) ?_)
  · obtain ⟨rfl, hstill⟩ := hI
    have hsame := hstill.flowAt
    split
    · rename_i place new hplace hnew
      refine
        (assignMember (fun s' hsame' => ⟨rfl, target, value, places, assigned, ty, fields, rfl,
        (hsame' _).trans ((hsame _).trans hplaces),
        (hsame' _).trans ((hsame _).trans hassigned), hty,
        hfields, ⟨before, after, hsplit, rfl⟩, hplace, hnew⟩)
        ⟨⟨p, .here hentry⟩, hv.arrives, target, value, s₁, rfl, htargetVisit.2,
          (hsame _).trans hkept⟩
        (hstill.visible hv.onward.visible)).weaken fun _ p' s' hp' => ⟨?_, ?_⟩
      · rw [hp'.1]
        simp [Task.did]
      · exact ⟨fun id => (hp'.2.flowAt id).trans (hsame id),
          fun hvisible => hp'.2.visible (hstill.visible hvisible)⟩
    · rename_i hmissing
      refine .fault (.assignment (h.task (before.map Field.path) s₂.context) rfl
        ((hsame _).trans hplaces) ((hsame _).trans hassigned) hty hfields
        (by simp [hsplit] : field ∈ fields) ?_)
      cases hplace : places.bundle[field.path]? with
      | none => exact .inl rfl
      | some place =>
        cases hnew : assigned.bundle[field.path]? with
        | none => exact .inr rfl
        | some new => exact (hmissing place new hplace hnew).elim
  · rintro _ _ s₃ ⟨rfl, hstill⟩
    have hfresh : X.Acyclic → s₃.flowAt id = none :=
      fun hacyclic => (hstill.flowAt id).trans (hv.fresh hacyclic)
    refine .liftThen (fun _ hfault => h.asks (.place rfl hfault)) fun path? hpath => ?_
    split
    · rename_i path
      refine .escapingThen (hstill.flowAt value ▸ hdone) fun held hheld =>
          .captureThen fun captures hcaptures =>
        .record hfresh rfl ⟨_, hpath, fun other hother => ?_⟩
      cases hother
      exact ⟨held, hheld, hcaptures⟩
    · rename_i hnone
      exact .record hfresh rfl ⟨_, hpath, fun other hother => absurd hother (hnone other)⟩

end Ruling
end Regions.Flow
