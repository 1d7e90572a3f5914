import Regions.Proofs.Faults
import Regions.Proofs.Grounded
import Regions.Proofs.Resumption

/-!
# Single results

Where operands come before the nodes that use them, a node may be used several times, as a value and
as a place. The analysis of a function comes to each node once, and its result stays.

* `analyzeUntil_congr`: neither the depth that is left nor moments of other nodes matter to the
  analysis of a node;
* `Untimely`, `Faulty.not_untimely`: the faults of an analysis that comes to nodes too often, too
  early or without end do not arise;
* `ending_of_halts`: a result that is there at a moment is there at all later ones;
* `analyzed_once`: the theorem about functions.
-/

namespace Regions.Flow

variable {env : Env} {id : NodeId} {depth depth' : Nat} {reached reached' : Moment → Bool}

/-! ## The depth of an analysis -/

theorem respected_eq (id : NodeId) : Respected (fun step step' => step = step') id where
  pure := fun _ => rfl
  bind := by
    intro α β step step' next next' hstep hnext
    rw [hstep, funext hnext]
  get := rfl
  throw := fun _ => rfl
  modifyContext := fun _ => rfl
  declare := fun _ _ => rfl
  rebind := fun _ _ => rfl
  adopt := fun _ _ => rfl
  record := fun _ _ => rfl
  enclosed := fun _ hsteps => congrArg (within _) hsteps

/-- The analysis of a node depends only on the moments of nodes up to it, as long as it may go deep
enough. -/
theorem analyzeUntil_congr {bound : Nat} (hreached : ∀ id moment, id.index < bound →
      moment = .before id ∨ moment = .after id → reached moment = reached' moment)
    (hid : id.index < bound) (h : env.Bounds depth id) (h' : env.Bounds depth' id)
    (position : Position) :
    analyzeUntil env reached depth position id = analyzeUntil env reached' depth' position id := by
  induction depth generalizing depth' position id with
  | zero => exact absurd h.pos (Nat.lt_irrefl 0)
  | succ depth ih =>
    obtain ⟨depth', rfl⟩ : ∃ below, depth' = below + 1 :=
      ⟨depth' - 1, by have := h'.pos; omega⟩
    refine related_analyzeUntil (respected_eq id) (fun moment hmoment step step' hstep => ?_)
        (fun node hnode position child hchild => ?_) position
    · rw [hstep, hreached id moment hid hmoment]
    · exact ih (Nat.lt_trans (h.ordered id node hnode child hchild) hid) (h.child hnode hchild)
        (h'.child hnode hchild) position

theorem Env.Ordered.bounds_of_le (h : env.Ordered) (hdepth : env.owner.depth ≤ depth)
    (id : NodeId) : env.Bounds depth id where
  ordered := h
  pos := Nat.lt_of_lt_of_le (Nat.succ_pos _) hdepth
  lt := fun node hnode => Nat.lt_of_lt_of_le ((h.bounds id).lt node hnode) hdepth

theorem Env.ordered_iff : env.Ordered ↔ ∀ i : Fin env.owner.nodes.items.size,
    ∀ child ∈ env.owner.nodes.items[i].expr.children, child.index < i := by
  refine ⟨fun h i => h ⟨i⟩ _ (Env.node_eq_ok_iff.2 (Array.getElem?_eq_getElem i.2)),
    fun h id node hnode => ?_⟩
  obtain ⟨hlt, rfl⟩ := Array.getElem?_eq_some_iff.1 (Env.node_eq_ok_iff.1 hnode)
  exact h ⟨id.index, hlt⟩

instance : Decidable env.Ordered := decidable_of_iff _ Env.ordered_iff.symm

/-- While the rule of a node runs, the node is not come to. -/
theorem Env.Ordered.rule_eq (h : env.Ordered) {node : Node} (hnode : env.node id = .ok node)
    (hdepth : id.index ≤ depth) (position : Position) :
    rule env (analyzeUntil env (· = .before id) depth) position id node.expr =
      rule env (analyzeNode env depth) position id node.expr := by
  refine (respected_eq id).rule hnode (fun position child hchild => ?_) position
  have hlt := h id node hnode child hchild
  have hbounds : env.Bounds depth child := ⟨h, by omega, fun _ _ => by omega⟩
  rw [← analyzeUntil_never]
  refine analyzeUntil_congr (fun other moment hother hmoment => ?_) hlt hbounds hbounds position
  rw [decide_eq_false_iff_not]
  rintro rfl
  rcases hmoment with hmoment | hmoment
  · cases hmoment
    omega
  · cases hmoment

/-! ## Faults -/

/-- The faults of an analysis that comes to nodes without end, again, or too late. -/
inductive Untimely : Fault → Prop
  | endless : Untimely .cyclicBody
  | again (id : NodeId) : Untimely (.recordedTwice id)
  | lifetimes (id : NodeId) : Untimely (.lifetimesTooEarly id)
  | escaping (id : NodeId) : Untimely (.escapingTooEarly id)

theorem Unanswered.not_untimely {fault : Fault} (h : Unanswered False fault) :
    ¬ Untimely fault := by
  cases h with
  | aggregate | node => exact fun h => by cases h
  | cyclic h => exact h.elim

theorem Env.Ordered.grounded (h : env.Ordered) :
    Grounded env.owner.nodes fun id => id.index < env.owner.nodes.size := by
  intro id hid
  refine ⟨_, Array.getElem?_eq_getElem hid, fun child hchild => ?_⟩
  have hlt := h id _ (Env.node_eq_ok_iff.2 (Array.getElem?_eq_getElem hid)) child hchild
  exact ⟨Nat.lt_trans hlt hid, hlt⟩

/-- The rules can follow all operands. -/
theorem Question.unanswered_of_ordered {node : Node} {fault : Fault} (h : Question env node fault)
    (hordered : env.Ordered) (hnode : env.node id = .ok node) : Unanswered False fault := by
  have hchild : ∀ child ∈ node.expr.children, child.index < env.owner.nodes.size :=
      fun child hchild =>
    Nat.lt_trans (hordered id node hnode child hchild) (Env.lt_size_of_node hnode)
  refine h.unanswered (.inr fun target value hexpr => ?_) (.inr fun condition body hexpr => ?_)
  · have htarget := hchild target (by simp [hexpr, Expr.children])
    exact hordered.grounded.exists_placePath? htarget (Nat.lt_succ_of_lt htarget)
  · exact hordered.grounded.exists_loopEffects (fun _ => Nat.lt_succ_of_lt)
      (hchild condition (by simp [hexpr, Expr.children]))
        (hchild body (by simp [hexpr, Expr.children]))

theorem Faulty.not_untimely {X : Setting} {H : Watch} {p₀ : Progress X} {o s : State}
    {fault : Fault} (h : Faulty X H p₀ o s fault) (hordered : X.env.Ordered) (hdeep : ¬ H.deep) :
    ¬ Untimely fault := by
  cases h with
  | deep h => exact absurd h hdeep
  | parameter _ h => exact (Inquires.fields False _ _ _ h).not_untimely
  | node _ h => exact (Inquires.node False _ _ _ h).not_untimely
  | question task h => exact (h.unanswered_of_ordered hordered task.found).not_untimely
  | twice task h =>
    refine absurd ⟨fun _ => True, NodeId.index, fun _ _ _ => trivial, ?_⟩ h
    exact fun id node _ hnode child hchild => ⟨trivial, hordered id node hnode child hchild⟩
  | _ => exact fun h => by cases h

/-! ## Functions -/

/-- If operands come before the nodes that use them, the analysis of a function does not depend on
how deep it may go. While the rule of a node runs, the analysis does not come to the node again: it
is not halted if it is to be halted there. It does not fail since a node gets a second result, or is
used before it has one. A result that is there when the analysis is halted at a moment is there at
each later moment, and where the analysis ends, whatever it ends with. -/
theorem analyzed_once (h : env.Ordered) (function : Function) (context : Context) :
    (∀ depth position id, env.owner.depth ≤ depth →
      analyzeNode env depth position id = analyzeNode env env.owner.depth position id) ∧
    (∀ depth position id node, env.node id = .ok node → id.index ≤ depth →
      rule env (analyzeUntil env (· = .before id) depth) position id node.expr =
        rule env (analyzeNode env depth) position id node.expr) ∧
    (∀ fault s, Aborts (analyzeFunction env function) (.start context env.owner.nodes.size)
      (.fault fault) s → ¬ Untimely fault) ∧
    ∀ (reached reached' : Moment → Bool) s id flow,
    (∀ moment, reached' moment = true → reached moment = true) →
      Halts (analyzeBody env function reached) (.start context env.owner.nodes.size) s →
      s.flowAt id = some flow →
      (ending (analyzeBody env function reached') (.start context env.owner.nodes.size)).flowAt
      id = some flow ∧
      (ending (analyzeFunction env function) (.start context env.owner.nodes.size)).flowAt
      id = some flow := by
  refine ⟨fun depth position id hdepth => ?_, fun depth position id node hnode hdepth =>
    h.rule_eq hnode hdepth position,
    fun fault s haborts =>
    ?_, fun reached reached' s id flow hreached hhalt hflow => ⟨?_, ?_⟩⟩
  · rw [← analyzeUntil_never]
    exact analyzeUntil_congr (fun _ _ _ _ => rfl) (Nat.lt_succ_self _) (h.bounds_of_le hdepth id)
      (h.bounds id) position
  · have htraces := traces_analyzeFunction env function (s := .start context env.owner.nodes.size)
      (p := ⟨none, []⟩) (H := ⟨fun _ => True, fun _ _ _ => True, False⟩) rfl
      (fun _ _ _ _ _ _ _ _ _ _ _ _ _ => trivial)
      (.inr (h.bounds _)) (fun _ _ => trivial) (fun _ => trivial) (.refl _ _)
    rw [haborts] at htraces
    obtain ⟨p, -, hstops⟩ := htraces
    exact (hstops.fault fault rfl).not_untimely h id
  · exact ((resumes_analyzeBody hreached).grows_of_halts hhalt).recorded id flow hflow
  · exact (grows_ending_of_halts hhalt).recorded id flow hflow

/-- The function `void f(int* p) { p = p; &p; }`, with one node for all that names `p`. -/
def namesOnce : Function :=
  ⟨⟨["f"]⟩, [⟨"p", ⟨["f", "p"]⟩, .pointer .int, true⟩], .void, ⟨3⟩⟩

def namesOnceEnv : Env :=
  .ofFunction ⟨∅, ∅⟩ {} ⟨⟨0⟩, .function namesOnce, .ofList [
    ⟨.var ⟨["f", "p"]⟩, .pointer .int, ⟨0, 1⟩⟩,
      ⟨.assignment ⟨0⟩ ⟨0⟩, .void, ⟨0, 5⟩⟩,
    ⟨.addressOf ⟨0⟩, .pointer (.pointer .int), ⟨7, 9⟩⟩,
    ⟨.block [⟨1⟩, ⟨2⟩], .void, ⟨0, 9⟩⟩]⟩ namesOnce

theorem analyzed_once_of_namesOnce : namesOnceEnv.Ordered ∧ ∃ s flow,
    PassesBy namesOnceEnv namesOnce .initial (.after ⟨0⟩) s ∧ s.flowAt ⟨0⟩ = some flow ∧
    (ending (analyzeFunction namesOnceEnv namesOnce) (.start .initial 4)).flowAt
    ⟨0⟩ = some flow := by
  have h : ∃ s, PassesBy namesOnceEnv namesOnce .initial (.after ⟨0⟩) s ∧
      (s.flowAt ⟨0⟩).isSome = true := by
    decide +kernel
  obtain ⟨s, hpasses, hsome⟩ := h
  obtain ⟨flow, hflow⟩ := Option.isSome_iff_exists.1 hsome
  have hordered : namesOnceEnv.Ordered := by decide
  exact ⟨hordered, s, flow, hpasses, hflow,
    ((analyzed_once hordered namesOnce .initial).2.2.2 _ _ s ⟨0⟩ flow (fun _ h => h)
    hpasses hflow).2⟩

end Regions.Flow
