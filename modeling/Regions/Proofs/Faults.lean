import Regions.Proofs.Points

/-!
# Why faults arise

The rules of the analysis ask questions about the program, and some faults are only missing answers.
All other faults arise at one place each.

* `Unanswered`: the faults of questions without an answer;
* `Question.unanswered`: the rules ask nothing else;
* `Faulty.undeclaredBinding`, `Faulty.memberCount`: what is wrong where these two faults arise.
-/

namespace Regions.Flow

/-- The faults of questions about a program that have no answer. In some programs operands may be
followed without end. -/
inductive Unanswered (cyclic : Prop) : Fault → Prop
  | aggregate (path : Path) : Unanswered cyclic (.undeclaredAggregate path)
  | node (owner : OwnerId) (id : NodeId) : Unanswered cyclic (.missingNode owner id)
  | cyclic (h : cyclic) : Unanswered cyclic .cyclicBody

/-! ## Questions -/

section Questions

variable {α β : Type} {cyclic : Prop}

/-- A computation that only asks questions. -/
def Inquires (cyclic : Prop) (result : Except Fault α) : Prop :=
  ∀ fault, result = .error fault → Unanswered cyclic fault

namespace Inquires

theorem ok (a : α) : Inquires cyclic (.ok a) := by
  intro fault h
  cases h

theorem error {fault : Fault} (h : Unanswered cyclic fault) :
    Inquires cyclic (.error fault : Except Fault α) := by
  intro other hother
  cases hother
  exact h

theorem bind {result : Except Fault α} {next : α → Except Fault β} (h : Inquires cyclic result)
    (h' : ∀ a, Inquires cyclic (next a)) : Inquires cyclic (result >>= next) := by
  cases result with
  | ok a => exact h' a
  | error fault => exact error (h fault rfl)

theorem mapM {f : α → Except Fault β} {xs : List α} (h : ∀ x, Inquires cyclic (f x)) :
    Inquires cyclic (xs.mapM f) := by
  induction xs with
  | nil => exact ok []
  | cons x xs ih =>
    rw [List.mapM_cons]
    exact (h x).bind fun b => ih.bind fun bs => ok _

theorem anyM {f : α → Except Fault Bool} {xs : List α} (h : ∀ x, Inquires cyclic (f x)) :
    Inquires cyclic (xs.anyM f) := by
  induction xs with
  | nil => exact ok false
  | cons x xs ih =>
    refine (h x).bind fun found => ?_
    cases found with
    | true => exact ok true
    | false => exact ih

theorem filterMapM {f : α → Except Fault (Option β)} {xs : List α}
    (h : ∀ x, Inquires cyclic (f x)) : Inquires cyclic (xs.filterMapM f) := by
  induction xs with
  | nil => exact ok []
  | cons x xs ih =>
    rw [List.filterMapM_cons]
    refine (h x).bind fun found => ?_
    cases found with
    | none => exact ih
    | some b => exact ih.bind fun bs => ok _

variable (cyclic)

theorem node (owner : Owner) (id : NodeId) : Inquires cyclic (owner.node id) := by
  unfold Owner.node
  split
  · exact ok _
  · exact error (.node _ _)

theorem membersWithin (decls : Declarations) (visiting : List Path) (base : Path) (ty : Ty) :
    Inquires cyclic (decls.membersWithin visiting base ty) := by
  fun_induction decls.membersWithin visiting base ty with
  | case1 => exact ok _
  | case2 => exact error (.aggregate _)
  | case3 => exact ok _
  | case4 visiting base ty path _ aggregate _ _ ih =>
    exact (mapM fun member => ih member).bind fun below => ok _

theorem members (decls : Declarations) (ty : Ty) : Inquires cyclic (decls.members ty) := by
  unfold Declarations.members
  split
  · exact ok []
  · exact membersWithin cyclic decls [] .whole ty

theorem tracksWithin (decls : Declarations) (visiting : List Path) (ty : Ty) :
    Inquires cyclic (decls.tracksWithin visiting ty) := by
  fun_induction decls.tracksWithin visiting ty with
  | case1 => exact ok _
  | case2 => exact error (.aggregate _)
  | case3 => exact ok _
  | case4 visiting ty path _ aggregate _ _ ih => exact anyM fun member => ih member

theorem tracked (decls : Declarations) (ty : Ty) : Inquires cyclic (decls.tracked ty) :=
  tracksWithin cyclic decls [] ty

theorem fields (decls : Declarations) (ty : Ty) : Inquires cyclic (decls.fields ty) :=
  (members cyclic decls ty).bind fun _ => mapM fun member =>
    (tracked cyclic decls member.2).bind fun _ => ok _

variable {cyclic} (h : cyclic)
include h

theorem walkFrom (owner : Owner) (depth : Nat) (id : NodeId) :
    Inquires cyclic (owner.walkFrom depth id) := by
  induction depth generalizing id with
  | zero => exact error (.cyclic h)
  | succ depth ih => exact (node cyclic owner id).bind fun found => (mapM ih).bind fun below => ok _

theorem placePath? (owner : Owner) (depth : Nat) (id : NodeId) :
    Inquires cyclic (placePath? owner depth id) := by
  induction depth generalizing id with
  | zero => exact error (.cyclic h)
  | succ depth ih =>
    refine (node cyclic owner id).bind fun found => ?_
    split
    · exact ok _
    · exact (ih _).bind fun path? => ok _
    · exact ok _

theorem loopEffects (owner : Owner) (condition body : NodeId) :
    Inquires cyclic (loopEffects owner condition body) := by
  have hnamed : ∀ ids select, Inquires cyclic (namedPaths owner ids select) := fun ids select =>
    (filterMapM fun id => (node cyclic owner id).bind fun _ => ok _).bind fun places =>
      filterMapM (placePath? h owner owner.depth)
  refine (walkFrom h owner _ condition).bind fun above =>
    (walkFrom h owner _ body).bind fun below => ?_
  exact (hnamed _ _).bind fun assigned => (hnamed _ _).bind fun addressTaken => ok _

end Inquires

end Questions

/-- Where the rule of a node can follow its operands, it asks nothing else. -/
theorem Question.unanswered {env : Env} {node : Node} {fault : Fault} {cyclic : Prop}
    (h : Question env node fault)
    (hplace : cyclic ∨ ∀ target value, node.expr = .assignment target value →
      ∃ path?, placePath? env.owner env.owner.depth target = .ok path?)
    (heffects : cyclic ∨ ∀ condition body, node.expr = .loop condition body →
      ∃ effects, loopEffects env.owner condition body = .ok effects) :
    Unanswered cyclic fault := by
  cases h with
  | members h => exact Inquires.members _ _ _ _ h
  | fields h => exact Inquires.fields _ _ _ _ h
  | tracked h | operandTracked _ _ h => exact Inquires.tracked _ _ _ _ h
  | operand _ h => exact Inquires.node _ _ _ _ h
  | operandFields _ _ h => exact Inquires.fields _ _ _ _ h
  | place hexpr h =>
    rcases hplace with hcyclic | hplace
    · exact Inquires.placePath? hcyclic _ _ _ _ h
    · obtain ⟨path?, hpath⟩ := hplace _ _ hexpr
      cases hpath.symm.trans h
  | effects hexpr h =>
    rcases heffects with hcyclic | heffects
    · exact Inquires.loopEffects hcyclic _ _ _ _ h
    · obtain ⟨effects, hfound⟩ := heffects _ _ hexpr
      cases hfound.symm.trans h

/-! ## Faults that arise at one place -/

variable {X : Setting} {H : Watch} {s : State}

/-- A variable is missing only where a node names it. -/
theorem Faulty.undeclaredBinding {path : Path} (h : Faulty X H p₀ o s (.undeclaredBinding path)) :
    ∃ (task : Task X) (x m : Path) (members : List (Path × Ty)), task.node.expr = .var x ∧
      H.arrives task.position task.id s ∧
      X.env.declarations.members task.node.ty = .ok members ∧
      m ∈ members.map Prod.fst ∧ s.frame.lookup? (x ++ m) = none := by
  cases h with
  | parameter _ h => cases Inquires.fields False _ _ _ h
  | node _ h => cases Inquires.node False _ _ _ h
  | question task h => cases h.unanswered (.inl trivial) (.inl trivial)
  | unseen task hexpr harrives hmembers hpath h =>
      exact ⟨task, _, _, _, hexpr, harrives, hmembers, hpath, h⟩

/-- Members are counted only where one is accessed. -/
theorem Faulty.memberCount {id : NodeId} (h : Faulty X H p₀ o s (.memberCount id)) :
    ∃ (task : Task X) (target : NodeId) (name : String) (flow : NodeFlow)
    (members : List (Path × Ty)),
      task.node.expr = .memberAccess target name ∧ s.flowAt target = some flow ∧
      X.env.declarations.members task.node.ty = .ok members ∧
      (flow.bundle.scopedTo (.single name)).size ≠ members.length := by
  cases h with
  | parameter _ h => cases Inquires.fields False _ _ _ h
  | node _ h => cases Inquires.node False _ _ _ h
  | question task h => cases h.unanswered (.inl trivial) (.inl trivial)
  | count task hexpr hflow hmembers h => exact ⟨task, _, _, _, _, hexpr, hflow, hmembers, h⟩

/-- A function whose analysis fails has a state where it does. -/
theorem exists_of_runFunction {decls : Declarations} {options : Options} {owner : Owner}
    {function : Function} {abort : Abort} {context : Context}
    (h : runFunction decls options context owner function = .error abort) :
    ∃ s, Aborts (analyzeFunction (.ofFunction decls options owner function) function)
      (.start context owner.nodes.size) abort s := by
  simp only [runFunction] at h
  split at h
  · cases h
  · rename_i abort s' hrun
    cases h
    exact ⟨s', hrun⟩

end Regions.Flow
