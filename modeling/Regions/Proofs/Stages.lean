import Regions.Proofs.Joins

/-!
# Executions and the states of the analysis

The analysis of a node starts in a state that describes memory, and ends in one that describes
memory after the node was executed.

* `Setting.span`: the analysis of the nodes of a span, and what it does to the frame;
* `Ready`: no node from here on has a result, and no visible path belongs to a variable that is
  still to be declared;
* `Safe`: whenever the analysis of some nodes starts in a state that describes memory, the outcome
  of their execution is described;
* `Stages`: the rule of a node, before, while and after its operands are analysed;
* `Completes`: what the last stage does keeps up with the last step of the execution.
-/

namespace Regions.Flow

variable {env : Env} {function : Function} {H : Lifetime → Lifetime → Prop}
  {s s₀ s₁ s' : State} {first last : Nat} {id : NodeId} {ids : List NodeId} {depth : Nat}

/-! ## Spans -/

/-- The analysis of the nodes of a span. -/
def Setting.span (env : Env) (first last : Nat) : Setting :=
  ⟨env, [], fun _ id => first ≤ id.index ∧ id.index < last⟩

theorem Setting.closed_span (hspans : Spans env.owner.nodes first ids last) :
    (span env first last).Closed := by
  intro position id node hvisits hnode operand hoperand
  have hchild := hspans.child hvisits.1 hvisits.2 (env_node_eq_ok_iff.1 hnode)
    (Expr.mem_children_of_mem_uses hoperand)
  exact ⟨hchild.1, hchild.2.trans hvisits.2⟩

theorem reframes_of_spans {position : Position} (hspans : Spans env.owner.nodes first [id] last)
    (hrun : Runs (analyzeNode env depth position id) s () s') :
    Reframes (.span env first last) s s' :=
  reframes_analyzeNode (Setting.closed_span hspans)
    (hspans.bounds (List.mem_singleton_self id)) hrun

theorem reframes_analyzeNodes (hspans : Spans env.owner.nodes first ids last)
    (hrun : Runs (ids.forM (analyzeNode env depth .value)) s () s') :
    Reframes (.span env first last) s s' := by
  have hvisits : ∀ id ∈ ids, first ≤ id.index ∧ id.index < last :=
    fun id hid => hspans.bounds hid
  have hclosed := Setting.closed_span hspans
  clear hspans
  induction hrun using runs_forM_rec with
  | nil s => exact .refl s
  | cons id ids hfirst _ ih =>
    have hframe : Reframes (.span env first last) _ _ :=
      reframes_analyzeNode hclosed (hvisits id List.mem_cons_self) hfirst
    exact hframe.trans (ih fun id hid => hvisits id (List.mem_cons_of_mem _ hid))

theorem grows_analyzeNodes
    (hrun : Runs (ids.forM (analyzeNode env depth .value)) s () s') : Grows s s' :=
  (preserved_grows ⟨0⟩).forM (fun id _ => grows_analyzeNode env depth .value id) s () s' hrun

/-! ## States that are ready -/

/-- The paths of data without references. -/
def DataPath (env : Env) (function : Function) (q : Path) : Prop :=
  ∀ x site ty m, Binds function.parameters env.owner.nodes x site ty → q = x ++ m →
    env.declarations.refersAt ty m = false

structure Ready (env : Env) (function : Function) (first : Nat) (s : State) : Prop where
  fresh : ∀ id, first ≤ id.index → s.flowAt id = none
  closed : ∀ q extent, s.frame.lookup? q = some extent →
    ∀ id node x value m, first ≤ id.index →
    env.node id = .ok node → node.expr = .declaration x value → q ≠ x ++ m
  lawful : Lawful (DataPath env function) s

theorem declaresData_dataPath (htidy : env.declarations.Tidy)
    (hshaped : Shaped env.declarations env.owner function) :
    DeclaresData env (DataPath env function) := by
  intro id node path value hnode hexpr ty fields hty hfields field hfield huntracked x site
    ty' m hbinds hq
  obtain ⟨valueNode, hvalueNode, hty⟩ := except_bind_eq_ok hty
  cases hty
  have hbinds' : Binds function.parameters env.owner.nodes path (some id) valueNode.ty :=
    .declaration (env_node_eq_ok_iff.1 hnode) hexpr (env_node_eq_ok_iff.1 hvalueNode)
  obtain ⟨rfl, -, rfl⟩ := hshaped.apart hbinds' hbinds hq
  rw [← Path.append_right_inj.1 hq]
  exact Declarations.refersAt_of_untracked htidy hfields hfield huntracked

namespace Ready

theorem not_opens (h : Ready env function first s) {q : Path} {extent : Extent}
    (hvisible : s.frame.lookup? q = some extent) : ¬ Opens (.span env first last) s q := by
  rintro (⟨parameter, hparameter, -⟩
    | ⟨id, node, x, value, m, hvisits, hnode, hexpr, hq, -⟩)
  · cases hparameter
  · exact h.closed q extent hvisible id node x value m hvisits.1 hnode hexpr hq

/-- A state with no other visible paths and with all the results. -/
theorem of_visible (h : Ready env function first s) {first' : Nat} (hle : first ≤ first')
    (hfresh : ∀ id, first' ≤ id.index → s'.flowAt id = none)
    (hvisible : ∀ q extent, s'.frame.lookup? q = some extent →
      ∃ before, s.frame.lookup? q = some before)
    (hlawful : Lawful (DataPath env function) s') : Ready env function first' s' where
  fresh := hfresh
  closed := by
    intro q extent hlookup id node x value m hlow
    obtain ⟨before, hbefore⟩ := hvisible q extent hlookup
    exact h.closed q before hbefore id node x value m (hle.trans hlow)
  lawful := hlawful

theorem of_lookup (h : Ready env function first s) {first' : Nat} (hle : first ≤ first')
    (hfresh : ∀ id, first' ≤ id.index → s'.flowAt id = none)
    (hlookup : ∀ q, s'.frame.lookup? q = s.frame.lookup? q)
    (hlawful : ∀ id flow, s'.flowAt id = some flow → flow.bundle.Slotted) :
    Ready env function first' s' := by
  refine h.of_visible hle hfresh (fun q extent hvisible => ⟨extent, ?_⟩)
    ⟨fun path extent hvisible => h.lawful.frame path extent ?_, hlawful⟩
  · rwa [hlookup] at hvisible
  · rwa [hlookup] at hvisible

theorem congr (h : Ready env function first s)
    (hlookup : ∀ q, s'.frame.lookup? q = s.frame.lookup? q)
    (hflows : ∀ id, s'.flowAt id = s.flowAt id) : Ready env function first s' :=
  h.of_lookup le_rfl (fun id hid => (hflows id).trans (h.fresh id hid)) hlookup
    fun id flow hflow => h.lawful.recorded id flow ((hflows id).symm.trans hflow)

section

variable (htidy : env.declarations.Tidy) (hshaped : Shaped env.declarations env.owner function)
  (h : Ready env function first s)

include htidy hshaped h

/-- The analysis of a tree of nodes leaves the state ready for what comes after the tree. -/
theorem analyze {position : Position} (hspans : Spans env.owner.nodes first [id] last)
    (hrun : Runs (analyzeNode env depth position id) s () s') : Ready env function last s' where
  fresh := by
    intro other hother
    have hle := hspans.le
    have honly := recordsOnly_analyzeNode
      (S := fun node => first ≤ node.index ∧ node.index < last) (by
        intro node content hnode hcontent child hchild
        have := hspans.child hnode.1 hnode.2 (env_node_eq_ok_iff.1 hcontent) hchild
        omega) depth position (hspans.bounds (List.mem_singleton_self _)) s () s' hrun
    rw [honly other (by omega)]
    exact h.fresh other (by omega)
  closed := by
    intro q extent hvisible other node x value m hlow hnode hexpr hq
    rcases (reframes_of_spans hspans hrun).seen q extent hvisible with ⟨before, hbefore⟩ |
      ⟨-, ⟨parameter, hparameter, -⟩
        | ⟨id', node', x', value', m', hvisits, hnode', hexpr', hq', -⟩⟩
    · exact h.closed q before hbefore other node x value m (hspans.le.trans hlow) hnode hexpr hq
    · cases hparameter
    · -- The path belongs to one variable only, whose declaration comes before the end of the tree.
      have hfits := hshaped.fitting other node (env_node_eq_ok_iff.1 hnode)
      have hfits' := hshaped.fitting id' node' (env_node_eq_ok_iff.1 hnode')
      rw [hexpr] at hfits
      rw [hexpr'] at hfits'
      obtain ⟨valueNode, hvalueNode⟩ := hfits
      obtain ⟨valueNode', hvalueNode'⟩ := hfits'
      obtain ⟨-, hsite, -⟩ :=
        hshaped.apart (.declaration (env_node_eq_ok_iff.1 hnode) hexpr hvalueNode)
        (.declaration (env_node_eq_ok_iff.1 hnode') hexpr' hvalueNode') (hq.symm.trans hq')
      cases hsite
      exact absurd hvisits.2 (Nat.not_lt.2 hlow)
  lawful := h.lawful.analyzeNode (declaresData_dataPath htidy hshaped) hrun

end

end Ready

/-- What is visible stays visible, as it is or with a logged version. -/
theorem Ready.lookup (h : Ready env function first s)
    (hreframes : Reframes (.span env first last) s s') {q : Path} {extent : Extent}
    (hvisible : s.frame.lookup? q = some extent) : s'.frame.lookup? q = some extent ∨
      ∃ after, s'.frame.lookup? q = some after ∧ Logged s s' q after.value := by
  obtain ⟨after, hafter⟩ := hreframes.visible q ⟨extent, hvisible⟩
  rcases hreframes.lookup hafter with hsame | hlogged | hopens
  · exact .inl (hafter.trans (hsame.symm.trans hvisible))
  · exact .inr ⟨after, hafter, hlogged⟩
  · exact absurd hopens (h.not_opens hvisible)

/-- What the end of an analysis describes is accounted for from its start on. -/
theorem Describes.accounts_of_reframes {memory : Memory}
    (h : Describes env function (s'.edges H) s'.frame memory) (hready : Ready env function first s)
    (hreframes : Reframes (.span env first last) s s') : Accounts env function H s s' memory :=
  (h.accounts (Grows.refl s')).earlier hreframes.grows (Grows.refl s') fun _ _ hvisible =>
    hready.lookup hreframes hvisible

/-! ## Executions that the analysis keeps up with -/

/-- Whenever the analysis of the nodes starts in a state that describes memory, what becomes of
memory is described: by the frame at its end if the execution is done, and in any case by the
versions that came between. -/
def Safe (env : Env) (function : Function) (ids : List NodeId) (memory : Memory) (outcome : Outcome)
    (memory' : Memory) : Prop :=
  ∀ first last depth H s s', Spans env.owner.nodes first ids last →
    Ready env function first s → Runs (ids.forM (analyzeNode env depth .value)) s () s' →
    Describes env function (s.edges H) s.frame memory →
    (∀ values, outcome = .done values →
      Describes env function (s'.edges H) s'.frame memory' ∧
        List.Forall₂ (CoversNode H s') ids values) ∧
    Accounts env function H s s' memory' ∧ Clean env H s s' memory memory'

/-- The rule of a node from `s` to `s'`: its operands are analysed from `s₀` to `s₁`. -/
structure Stages (env : Env) (function : Function) (depth : Nat) (operands : List NodeId)
    (s s₀ s₁ s' : State) : Prop where
  before : Grows s s₀
  lookup : ∀ q, s₀.frame.lookup? q = s.frame.lookup? q
  ready : ∃ first last, Spans env.owner.nodes first operands last ∧
    Ready env function first s₀
  runs : Runs (operands.forM (analyzeNode env depth .value)) s₀ () s₁
  after : Grows s₁ s'

section Stages

variable {operands : List NodeId} {memory middle : Memory} {outcome : Outcome}

/-- What is safe for the operands is safe for the node up to there. -/
theorem Stages.safe (h : Stages env function depth operands s s₀ s₁ s')
    (hsafe : Safe env function operands memory outcome middle)
    (hs : Describes env function (s.edges H) s.frame memory) :
    (∀ values, outcome = .done values →
      Describes env function (s₁.edges H) s₁.frame middle ∧
        List.Forall₂ (CoversNode H s₁) operands values) ∧
    Accounts env function H s s' middle ∧ Clean env H s s' memory middle := by
  obtain ⟨first, last, hspans, hready⟩ := h.ready
  have hs₀ : Describes env function (s₀.edges H) s₀.frame memory :=
    hs.mono (fun c x hedge => hedge.imp_left (h.before.graph c x)) h.lookup rfl
  obtain ⟨hdone, haccounts, hclean⟩ :=
    hsafe first last depth H s₀ s₁ hspans hready h.runs hs₀
  have hgrows := grows_analyzeNodes h.runs
  refine ⟨hdone, ?_, (hclean.later h.after).earlier h.before⟩
  refine Accounts.earlier (haccounts.later h.after) h.before (hgrows.trans h.after) ?_
  exact fun q extent hvisible => .inl ((h.lookup q).trans hvisible)

/-- A node without operands that are evaluated first. -/
theorem Stages.nil (hready : Ready env function first s) (hgrows : Grows s s') :
    Stages env function depth [] s s s s' where
  before := Grows.refl s
  lookup := fun _ => rfl
  ready := ⟨first, first, .nil first, hready⟩
  runs := runs_forM_nil_iff.2 rfl
  after := hgrows

end Stages

/-- With values of its operands that are described, the last step of the node in the execution is
matched by the last stage of its rule. -/
def Completes (env : Env) (function : Function) (H : Lifetime → Lifetime → Prop) (id : NodeId)
    (node : Node) (s s' : State) : Prop :=
  ∀ values memory value memory', Describes env function (s.edges H) s.frame memory →
    List.Forall₂ (CoversNode H s) node.expr.operands values →
    List.Forall₂ (FitsNode env.declarations env.owner.nodes) node.expr.operands values →
    memory'.Typed env.declarations env.owner function →
    Computes env.owner.nodes node.expr values memory value memory' →
    Describes env function (s'.edges H) s'.frame memory' ∧
      CoversNode H s' id (value.restrict env.declarations node.ty) ∧
      Clean env H s s' memory memory'

end Regions.Flow
