import Regions.Proofs.SealedMemory

/-!
# Captured variables

Where a function returns references to its own variables, the violation lists the variables that the
returned value holds on to. These come from captures, which are noted apart from the lifetimes that
the violation rests on: a variable captures what a value holds on to when the value is put into it.

In a function that goes through no references, every storing of one lifetime in another goes along
with a capture, so that the list explains the regions. What is put into a member, however, is
captured by the path of the member, and is missed where the list only follows what whole variables
have captured.

* `Captures.Catches`: a variable, or a member of it, has captured another;
* `Belongs`: the lifetime belongs to variables of a set;
* `Surveyed.belongs`: a value belongs to variables that it holds on to;
* `Belongs.held`, `Belongs.reaches`: what is held belongs to variables that are captured;
* `exists_variable_of_returnEscape`: so each variable that is returned is found by following
  captures.
-/

namespace Regions

open Relation

variable {owner : Owner} {y n : Path} {id : NodeId} {m : Path}

/-- The variable, or a member of it, has captured the other. -/
def Captures.Catches (captures : Captures) (x y : Path) : Prop :=
  ∃ m, captures.held.Adj (x ++ m) y

/-- The path is that of a parameter, or of a variable which is declared in the body. -/
def Owner.HasVariable (owner : Owner) (function : Function) (x : Path) : Prop :=
  ∃ site ty, Binds function.parameters owner.nodes x site ty

/-- The assignments are to whole variables. -/
def Owner.AssignsVariables (owner : Owner) (inside : NodeId → Prop) : Prop :=
  ∀ id node target value, inside id → owner.nodes.get? id = some node →
    node.expr = .assignment target value →
    ∃ place y, owner.nodes.get? target = some place ∧ place.expr = .var y

/-- The variables at the roots of places are those that nodes name. -/
theorem Names.exists_var {nodes : Arena Node} {x : Path} (h : Names nodes id x m) :
    ∃ id' node, nodes.get? id' = some node ∧ node.expr = .var x := by
  induction h with
  | var hnode hexpr => exact ⟨_, _, hnode, hexpr⟩
  | member _ _ _ ih => exact ih

namespace Flow

variable {X : Setting} {function : Function} {p : Progress X} {s : State} {U : Path → Prop}
  {sources : Lifetime → Option Lifetime} {c l r x : Lifetime} {flow : NodeFlow}

/-- The path of a place that names a variable is known, once it was asked for. -/
theorem eq_some_of_placePath? (h : Names owner.nodes id y m) {depth : Nat}
    {path? : Option Path} (hpath : placePath? owner depth id = .ok path?) :
    path? = some (y ++ m) := by
  have hstep : ∀ {id : NodeId} {node : Node}, owner.nodes.get? id = some node →
      owner.node id = .ok node := by
    intro id node hnode
    simp [Owner.node, hnode]
  induction h generalizing depth path? with
  | @var id node y hnode hexpr =>
    cases depth with
    | zero => cases hpath
    | succ depth =>
      rw [placePath?, hstep hnode] at hpath
      obtain ⟨found, hfound, hpath⟩ := except_bind_eq_ok hpath
      cases hfound
      rw [hexpr] at hpath
      cases hpath
      rw [Path.append_whole]
  | @member id target node name y m hnode hexpr _ ih =>
    cases depth with
    | zero => cases hpath
    | succ depth =>
      rw [placePath?, hstep hnode] at hpath
      obtain ⟨found, hfound, hpath⟩ := except_bind_eq_ok hpath
      cases hfound
      rw [hexpr] at hpath
      obtain ⟨above?, habove, hpath⟩ := except_bind_eq_ok hpath
      cases hpath
      rw [ih habove, Path.append_child]
      rfl

/-! ## What values and places belong to -/

/-- The variables that a result holds on to are in the set. -/
def HeldIn (X : Setting) (function : Function) (U : Path → Prop) (flow : NodeFlow) : Prop :=
  ∀ x ∈ flow.escaping, X.env.owner.HasVariable function x → U x

/-- What the operand of a node holds on to is in the set if what the node holds on to is. -/
theorem HeldIn.of_heldBy {held : NodeFlow} {operand : NodeId} (h : HeldIn X function U flow)
    (hflow : s.flowAt operand = some held) (hheld : HeldBy s operand flow.escaping) :
    HeldIn X function U held := by
  obtain ⟨held', hheld', hsub⟩ := hheld
  cases hflow.symm.trans hheld'
  exact fun y hy => h y (hsub y hy)

/-- The lifetime belongs to variables in the set, or holds no data. -/
inductive Belongs (X : Setting) (function : Function) (s : State) (U : Path → Prop) :
    Lifetime → Prop
  | named {l : Lifetime} {y m : Path} (hvariable : X.env.owner.HasVariable function y)
      (hpath : l.path = y ++ m)
      (horigin : l.origin = .localSlot ∨ l.origin = .localValue) (hy : U y) :
      Belongs X function s U l
  /-- A literal, or the joined value of two branches. -/
  | gathered {l : Lifetime} {id : NodeId} {kind : String} {m : Path} {flow : NodeFlow}
      (hpath : l.path = X.env.tempPath kind id ++ m) (horigin : l.origin = .temporary)
      (hflow : s.flowAt id = some flow) (hheld : HeldIn X function U flow) : Belongs X
      function s U l
  /-- Heap memory, or what a call returns. -/
  | made {l : Lifetime} {id : NodeId} {kind : String} {m : Path}
      (hpath : l.path = X.env.tempPath kind id ++ m)
      (horigin : l.origin = .heap) : Belongs X function s U l
  | absent {l : Lifetime} (h : l.isNone = true) : Belongs X function s U l

theorem Belongs.of_local (h : Belongs X function s U l)
    (hlocal : l.origin = .localSlot ∨ l.origin = .localValue) :
    ∃ y m, X.env.owner.HasVariable function y ∧ l.path = y ++ m ∧ U y := by
  cases h with
  | named hvariable hpath _ hy => exact ⟨_, _, hvariable, hpath, hy⟩
  | gathered _ horigin | made _ horigin => simp [horigin] at hlocal
  | absent hnone =>
    have horigin : l.origin = .none := by simpa [Lifetime.isNone] using hnone
    simp [horigin] at hlocal

theorem Belongs.of_temporary (h : Belongs X function s U l) (htemporary : l.origin = .temporary)
    {kind : String} (hid : l.path = X.env.tempPath kind id ++ m) :
    ∃ flow, s.flowAt id = some flow ∧ HeldIn X function U flow := by
  cases h with
  | named _ _ horigin => simp [htemporary] at horigin
  | gathered hpath _ hflow hheld =>
    rw [node_of_tempPath (hid.symm.trans hpath)]
    exact ⟨_, hflow, hheld⟩
  | made _ horigin => simp [htemporary] at horigin
  | absent hnone => simp [Lifetime.isNone, htemporary] at hnone

namespace Surveyed

variable (h : Surveyed X function s) {node : Node} {extent : Extent}

include h

theorem tracked_of_value (hvisits : X.visits .value id) (hnode : X.env.node id = .ok node)
    (hflow : s.flowAt id = some flow) (hm : flow.bundle[m]? = some extent)
    (hsome : extent.value.isNone = false) : X.env.tracked node.ty = .ok true := by
  obtain ⟨tracked, htracked⟩ := h.tracks id node (env_node_eq_ok_iff.1 hnode)
  cases tracked with
  | true => exact htracked
  | false =>
    have hnil := h.outlined.tracked_eq_nil hflow hvisits hnode htracked
    have hmem : extent.value ∈ flow.bundle.tracked :=
      Bundle.mem_tracked_iff.2 ⟨m, extent, hm, rfl, hsome⟩
    rw [hnil] at hmem
    cases hmem

theorem hasVariable (hnames : Names X.env.owner.nodes id y n) :
    X.env.owner.HasVariable function y := by
  obtain ⟨id', node, hnode, hexpr⟩ := hnames.exists_var
  obtain ⟨site, hbinds⟩ := binds_of_var h.sound.sited (env_node_eq_ok_iff.2 hnode) hexpr
  exact ⟨site, node.ty, hbinds⟩

/-- The storage of a place is that of the variable which it names. -/
theorem belongs_place (hplace : X.visits .place id) (hflow : s.flowAt id = some flow)
    (hheld : HeldIn X function U flow) (hm : flow.bundle[m]? = some extent) :
    Belongs X function s U extent.slot := by
  obtain ⟨y, n, hnames, hy⟩ := h.names hplace hflow
  have hslot := (h.outlined.anchors hflow hplace hnames hm).slot
  have hvariable := h.hasVariable hnames
  refine .named hvariable (m := n ++ m) ?_ ?_ (hheld y hy hvariable)
  · rw [hslot, ← Path.append_assoc]
    rfl
  · rw [hslot]
    exact .inl rfl

/-- The data of a value belongs to variables that the value holds on to. -/
theorem belongs (hvalue : X.visits .value id) (hflow : s.flowAt id = some flow)
    (hheld : HeldIn X function U flow) (hm : flow.bundle[m]? = some extent) :
    Belongs X function s U extent.value := by
  refine h.sound.acyclic.induction h.sound.closed
    (P := fun position id => position = .value → ∀ flow,
    s.flowAt id = some flow → HeldIn X function U flow →
    ∀ (m : Path) extent, flow.bundle[m]? = some extent →
    Belongs X function s U extent.value) ?_ hvalue rfl flow hflow hheld m extent hm
  rintro _ id hvisits ih rfl flow hflow hheld m extent hm
  by_cases hnone : extent.value.isNone = true
  · exact .absent hnone
  have hsome := (Bool.not_eq_true _).mp hnone
  obtain ⟨task, s₀, rfl, hcoherent, hgrows, hresult, hescapes, -⟩ := h.attested id flow hflow
  have hposition := h.sound.unique _ _ _ task.visited hvisits
  have htracked := h.tracked_of_value hvisits task.found hflow hm hsome
  have huses := h.sound.closed _ _ _ task.visited task.found
  have ih := ih task.node task.found
  have hpointer : ∀ {kind pointer}, ¬ Pointer s₀ task.node.expr kind pointer :=
    h.not_pointer task.visited task.found
  have hvar : ∀ {y : Path}, task.node.expr = .var y → ∃ site,
      Binds function.parameters X.env.owner.nodes y site task.node.ty :=
      binds_of_var h.sound.sited task.found
  rw [hposition] at hresult hescapes huses
  -- What an operand holds on to, the node holds on to as well.
  have hpass : ∀ {operand : NodeId} {held : NodeFlow}, HeldBy s operand flow.escaping →
      s₀.flowAt operand = some held → s.flowAt operand = some held ∧
      HeldIn X function U held := by
    intro operand held hheldBy hoperand
    have hoperand := hgrows.recorded _ _ hoperand
    exact ⟨hoperand, hheld.of_heldBy hoperand hheldBy⟩
  generalize hexpr : task.node.expr = expr at hresult hescapes ih hpointer hvar huses
  cases hresult.sourced hm with
  | untracked => cases hsome
  | @read y fields field extent hfields hfield _ hlookup =>
    obtain ⟨site, hbinds⟩ := hvar rfl
    have hanchored := hcoherent.bindings.lookup hlookup
    rcases hanchored.value with hnone | ⟨hpath, horigin⟩
    · exact .absent (by rw [hnone]; rfl)
    · exact .named ⟨site, _, hbinds⟩ hpath (.inr horigin)
        (hheld y (hescapes htracked) ⟨site, _, hbinds⟩)
  | resolved hpointer' | fetched hpointer' => exact (hpointer hpointer').elim
  | member hoperand hextent =>
    obtain ⟨hoperand, hheld⟩ := hpass (hescapes htracked) hoperand
    exact ih (.value, _) (by simp [Expr.uses]) rfl _ hoperand hheld _ _ hextent
  | address hoperand hwhole =>
    obtain ⟨hoperand, hheld⟩ := hpass hescapes hoperand
    exact h.belongs_place (huses (.place, _) (by simp [Expr.uses])) hoperand hheld hwhole
  | allocated | called => exact .made (Path.append_whole _).symm rfl
  | @inserted fields field _ _ inner _ hfield hoperand hextent =>
    obtain ⟨hoperand, hheld⟩ := hpass (hescapes htracked _ hfield) hoperand
    have huse : (.value, field.2) ∈ Expr.uses .value (.structLiteral fields) := by
      simpa [Expr.uses, Expr.children] using ⟨_, hfield⟩
    exact ih (.value, field.2) huse rfl _ hoperand hheld _ inner hextent
  | shared => exact .gathered (Path.append_whole _).symm rfl hflow hheld
  | @result statements last _ _ _ hvoid hlast hoperand hextent =>
    obtain ⟨hoperand, hheld⟩ := hpass (hescapes hvoid _ hlast) hoperand
    have huse : (.value, last) ∈ Expr.uses .value (.block statements) := by
      simpa [Expr.uses, Expr.children] using List.mem_of_getLast? hlast
    exact ih (.value, last) huse rfl _ hoperand hheld _ _ hextent
  | joined => exact .gathered rfl rfl hflow hheld

end Surveyed

/-! ## What is held -/

/-- An assignment of the function is to the variable or member at the path. -/
def Setting.Assigns (X : Setting) (path : Path) : Prop :=
  ∃ id node target value, X.visits .value id ∧ X.env.node id = .ok node ∧
    node.expr = .assignment target value ∧
    placePath? X.env.owner X.env.owner.depth target = .ok (some path)

/-- With a variable, the set has all variables that it has captured, and those that a member has
captured which is assigned to. -/
def Gathers (X : Setting) (function : Function) (s : State) (U : Path → Prop) : Prop :=
  ∀ y n, X.env.owner.HasVariable function y → U y → (n = .whole ∨ X.Assigns (y ++ n)) →
    ∀ z, X.env.owner.HasVariable function z → s.context.captures.held.Adj (y ++ n) z → U z

section Held

variable (h : Surveyed X function s)

include h

/-- What is put into a variable belongs to variables that are captured. -/
theorem Gathers.belongs (hgathers : Gathers X function s U)
    (hvariable : X.env.owner.HasVariable function y) (hy : U y)
    (hinto : n = .whole ∨ X.Assigns (y ++ n)) {value : NodeId}
    (hcaptured : CapturedBy s value (y ++ n)) (hvalue : X.visits .value value)
    (hflow : s.flowAt value = some flow) {extent : Extent}
    (hm : flow.bundle[m]? = some extent) : Belongs X function s U extent.value := by
  refine h.belongs hvalue hflow (fun z hz hvariable' => ?_) hm
  obtain ⟨held, hheld, hall⟩ := hcaptured
  cases hflow.symm.trans hheld
  rcases hall z hz with heq | hadj
  · -- A variable that is put into itself is the variable as a whole.
    obtain ⟨site, ty, hbinds⟩ := hvariable
    obtain ⟨site', ty', hbinds'⟩ := hvariable'
    obtain ⟨rfl, -⟩ := h.sound.sited.apart hbinds' hbinds ((Path.append_whole z).trans heq)
    exact hy
  · exact hgathers y n hvariable hy hinto z hvariable' hadj

/-- What a node holds on to is known from its result. -/
theorem Surveyed.escapes_of_flow {task : Task X} (hflow : s.flowAt task.id = some flow) :
    Escapes X.env s task.node.ty task.position task.node.expr flow.escaping := by
  obtain ⟨task', s₀, hid, -, -, -, hescapes, -⟩ := h.attested _ _ hflow
  have hposition := h.sound.unique _ _ _ task'.visited (hid ▸ task.visited)
  have hfound := task'.found
  rw [hid] at hfound
  have hnode : task'.node = task.node := Except.ok.inj (hfound.symm.trans task.found)
  rw [hnode, hposition] at hescapes
  exact hescapes

/-- A node that is not at work any more has its result. -/
theorem Surveyed.escapes {task : Task X} (hidle : p.task = none) (hwork : Underway p s task.id) :
    ∃ escaping, Escapes X.env s task.node.ty task.position task.node.expr escaping := by
  rcases hwork with hflow | ⟨other, hother, -⟩
  · obtain ⟨flow, hflow⟩ := Option.ne_none_iff_exists'.1 hflow
    exact ⟨flow.escaping, h.escapes_of_flow hflow⟩
  · simp [hidle] at hother

/-- A copy belongs to variables that its variable has captured. -/
theorem Copied.belongs (hgathers : Gathers X function s U) (hidle : p.task = none)
    (hcopied : Copied X p s c x) (hvariable : X.env.owner.HasVariable function y)
    (hpath : c.path = y ++ n) (hy : U y) : Belongs X function s U x := by
  obtain ⟨site, ty, hbinds⟩ := hvariable
  cases hcopied with
  | @declared task path field initial hdeclaring hwork =>
    obtain ⟨value, flow, valueTy, fields, hexpr, hflow, hty, -, -, hinitial⟩ :=
      hdeclaring.operands
    obtain ⟨valueNode, hvalueNode, -⟩ := except_bind_eq_ok hty
    have hdeclares : Binds function.parameters X.env.owner.nodes path (some task.id) valueNode.ty :=
      .declaration (env_node_eq_ok_iff.1 task.found) hexpr (env_node_eq_ok_iff.1 hvalueNode)
    obtain ⟨rfl, -⟩ := h.sound.sited.apart hbinds hdeclares hpath.symm
    obtain ⟨escaping, hescapes⟩ := h.escapes hidle hwork
    have huses := h.sound.closed _ _ _ task.visited task.found (.value, value)
    rw [hdeclaring.position, hexpr] at hescapes huses
    refine hgathers.belongs h ⟨site, ty, hbinds⟩ hy (.inl rfl) (n := .whole) ?_
      (huses (by simp [Expr.uses, Expr.children])) hflow hinitial.symm
    rw [Path.append_whole]
    exact hescapes
  | @assigned task field place new _ hassigning hslot hcopy hwork =>
    obtain ⟨target, value, places, assigned, targetTy, fields, hexpr, htarget, hvalue, -, -, -,
        hplace, hnew⟩ :=
      hassigning.operands
    have huses := h.sound.closed _ _ _ task.visited task.found
    have hvisited := task.visited
    obtain ⟨escaping, hescapes⟩ := h.escapes hidle hwork
    rw [hassigning.position, hexpr] at hescapes huses
    rw [hassigning.position] at hvisited
    have hplaced : X.visits .place target := huses (.place, target) (by simp [Expr.uses])
    obtain ⟨z, k, hnames, -⟩ := h.names hplaced htarget
    obtain ⟨site', ty', hbinds'⟩ := h.hasVariable hnames
    have hroot : y ++ n = z ++ (k ++ field.path) := by
      rw [← hpath, hcopy, (h.outlined.anchors htarget hplaced hnames hplace).slot,
        ← Path.append_assoc]
      rfl
    obtain ⟨rfl, -⟩ := h.sound.sited.apart hbinds hbinds' hroot
    obtain ⟨path?, hpath?, hcaptured⟩ := hescapes
    have hsome := eq_some_of_placePath? hnames hpath?
    have hassigns : X.Assigns (y ++ k) :=
      ⟨task.id, task.node, target, value, hvisited, task.found, hexpr, hsome ▸ hpath?⟩
    exact hgathers.belongs h ⟨site, ty, hbinds⟩ hy (.inr hassigns) (hcaptured _ hsome)
      (huses (.value, value) (by simp [Expr.uses])) hvalue hnew

/-- The lifetimes of variables are below the path of the function. -/
theorem Belongs.own (hc : Belongs X function s U c) (hsome : c.isNone = false) : Own X.env c := by
  cases hc with
  | named hvariable hpath horigin =>
    obtain ⟨site, ty, hbinds⟩ := hvariable
    refine ⟨?_, ?_⟩
    · rw [hpath, h.sound.scope]
      apply Path.startsWith_append
      cases hbinds with
      | parameter hmem => exact h.sound.inside.parameters _ hmem
      | declaration hnode hexpr => exact h.sound.inside.declared _ _ _ _ hnode hexpr
    · rintro rfl
      simp [Lifetime.heap] at horigin
  | gathered hpath horigin =>
    refine ⟨?_, ?_⟩
    · rw [hpath]
      exact startsWith_tempPath _ _ _
    · rintro rfl
      simp [Lifetime.heap] at horigin
  | made hpath =>
    refine ⟨?_, ?_⟩
    · rw [hpath]
      exact startsWith_tempPath _ _ _
    · rintro rfl
      exact tempPath_ne_heap _ _ _ hpath.symm
  | absent hnone => simp [hnone] at hsome

/-- What lifetimes of a set of variables hold belongs to such variables too, copies of them and what
memory was given apart. -/
theorem Belongs.held {context : Context} (hunrelated : Unrelated X.env.scope context)
    {size : Nat} (hs : Lineage X (.start context size) p s sources)
    (horderly : Orderly context p s) (hidle : p.task = none)
    (hsealed : X.env.options.checkHeapStores = true → AllSealed context p s)
    (hgathers : Gathers X function s U) (hc : Belongs X function s U c)
    (hx : s.context.graph.Holds c x) : sources x = some c ∨ Belongs X function s U x ∨
      ∀ r, s.context.graph.Reaches x r → r.isSlot = false := by
  have hnew : ¬ context.graph.Holds c x := by
    intro hknown
    have hsome := (hunrelated.graph c x hknown).1
    obtain ⟨hpath, hheap⟩ := hc.own h hsome
    exact hunrelated.not_occurs hpath hsome hheap ⟨x, .inl hknown⟩
  cases (hs.edges c x hx).resolve_left hnew with
  | source hsource =>
    obtain ⟨-, horigin, -⟩ := hs.copies c x hsource
    obtain ⟨y, n, hvariable, hpath, hy⟩ := hc.of_local (.inr horigin)
    exact .inr (.inl ((hs.made c x hsource).belongs h hgathers hidle hvariable hpath hy))
  | copy hcopy => exact .inl hcopy
  | version _ horigin =>
    -- A slot and the versions of its variable have one path.
    obtain ⟨y, n, hvariable, hpath, hy⟩ := hc.of_local (.inl rfl)
    exact .inr (.inl (.named hvariable hpath (.inr horigin) hy))
  | operand hjoin _ hpath horigin =>
    obtain ⟨y, n, hvariable, hjoinPath, hy⟩ :=
      hc.of_local (.inr (horderly.numbered.joins _ hjoin).origin)
    exact .inr (.inl (.named hvariable (hpath.trans hjoinPath) (.inr horigin) hy))
  | @stored task _ _ _ hstores =>
    have huses := h.sound.closed _ _ _ task.visited task.found
    cases hstores with
    | read _ hpointer | written _ hpointer =>
        exact (h.not_pointer task.visited task.found hpointer).elim
    | @inserted fields field flow data hposition hexpr hfield hflow hdata htracked =>
      obtain ⟨whole, hwhole, hheld⟩ := hc.of_temporary rfl (Path.append_whole _).symm
      have hescapes := h.escapes_of_flow hwhole
      rw [hposition, hexpr] at hescapes huses
      obtain ⟨m, extent, hextent, rfl, -⟩ := Bundle.mem_tracked_iff.1 hdata
      refine .inr (.inl
        (h.belongs (huses (.value, field.2) ?_) hflow (hheld.of_heldBy hflow ?_) hextent))
      · simpa [Expr.uses, Expr.children] using ⟨_, hfield⟩
      · exact hescapes htracked field hfield
    | @initialized value flow ty fields field extent hposition hexpr hflow hextent _ hty hfields
        hfield =>
      rw [hposition, hexpr] at huses
      by_cases hnone : extent.value.isNone = true
      · exact .inr (.inl (.absent hnone))
      have hsome := (Bool.not_eq_true _).mp hnone
      by_cases hself : extent.value = X.env.allocation task.id
      · exact .inr (.inl (hself ▸ hc))
      cases hcheck : X.env.options.checkHeapStores with
      | true =>
        -- What memory was given rests on no variable.
        have hdone : s.flowAt task.id ≠ none := horderly.done hunrelated hidle ⟨_, .inl hx⟩
          ⟨.inr rfl, "new", .whole, (Path.append_whole _).symm⟩
        obtain ⟨base, hsecured, sources, hlineage⟩ :=
          (hsealed hcheck task.id task.node value task.found hexpr hdone).2 extent.value
            ⟨flow, ty, fields, field, extent, hflow, hty, hfields, hfield, hextent, rfl, hsome⟩
            hself
        exact .inr (.inr fun r hr => hsecured.isSlot_eq_false h hlineage hunrelated hr)
      | false =>
        -- Memory is not given references.
        obtain ⟨-, node, -, hnode⟩ := h.outlined.visited _ _ hflow
        have hvisits : X.visits .value value :=
          huses (.value, value) (by simp [Expr.uses, Expr.children])
        have htracked := h.tracked_of_value hvisits hnode hflow hextent hsome
        exact (h.enclosed.initializers hcheck task.id task.node value ⟨_, task.visited⟩
          (env_node_eq_ok_iff.1 task.found) hexpr
            ⟨node, env_node_eq_ok_iff.1 hnode, htracked⟩).elim
    | @joined condition positive negative branch flow fields field extent hposition hexpr
        hbranch hflow hextent hvoid hfields hfield htracked =>
      obtain ⟨whole, hwhole, hheld⟩ := hc.of_temporary rfl rfl
      have hescapes := h.escapes_of_flow hwhole
      rw [hposition, hexpr] at hescapes huses
      obtain ⟨tracked, hty⟩ := Declarations.exists_tracked_of_fields hfields
      cases Declarations.tracked_of_mem_fields hfields hfield htracked hty
      obtain ⟨hpositive, hnegative⟩ := hescapes hvoid hty
      have huse : X.visits .value branch := huses (.value, branch) (by
        rcases hbranch with rfl | rfl <;> simp [Expr.uses, Expr.children])
      refine .inr (.inl (h.belongs huse hflow (hheld.of_heldBy hflow ?_) hextent))
      rcases hbranch with rfl | rfl
      · exact hpositive
      · exact hnegative
    | mixed _ hexpr _ _ hcontainer _ _ hty htracked =>
      exact absurd htracked (h.not_tracked_of_argument hexpr (List.mem_of_getElem? hcontainer) hty)
  | through hassigning hslot =>
    rw [h.isSlot_of_assigning hassigning] at hslot
    cases hslot
  | returned => exact absurd rfl (hc.own h rfl).2

/-- On the way to a slot one need not pass from a lifetime to a copy of it: from there one only
comes back. -/
theorem Lineage.reaches_forward {base : State} (hs : Lineage X base p s sources)
    (hr : s.context.graph.Reaches l r) (hslot : r.isSlot = true) :
    ReflTransGen (fun c x => s.context.graph.Holds c x ∧ sources x ≠ some c) l r := by
  induction hr using ReflTransGen.head_induction_on with
  | refl => exact .refl
  | @head c x hx _ ih =>
    by_cases hcopy : sources x = some c
    · rcases ih.cases_head with rfl | ⟨next, ⟨hnext, hne⟩, hrest⟩
      · -- A slot is no copy.
        obtain ⟨-, horigin, -⟩ := hs.copies _ _ hcopy
        simp [Lifetime.isSlot, horigin] at hslot
      · rcases hs.held_of_copy h hcopy hnext with rfl | hback
        · exact hrest
        · exact absurd hback hne
    · exact .head ⟨hx, hcopy⟩ ih

/-- A slot that such lifetimes get to belongs to such a variable. -/
theorem Belongs.reaches {context : Context} (hunrelated : Unrelated X.env.scope context)
    {size : Nat} (hs : Lineage X (.start context size) p s sources)
    (horderly : Orderly context p s) (hidle : p.task = none)
    (hsealed : X.env.options.checkHeapStores = true → AllSealed context p s)
    (hgathers : Gathers X function s U) (hl : Belongs X function s U l)
    (hr : s.context.graph.Reaches l r) (hslot : r.isSlot = true) : Belongs X function s U r := by
  have hforward := hs.reaches_forward h hr hslot
  clear hr
  induction hforward using ReflTransGen.head_induction_on with
  | refl => exact hl
  | head hx hrest ih =>
    rcases (hl.held h hunrelated hs horderly hidle hsealed hgathers hx.1).resolve_left hx.2
      with hbelongs | hshut
    · exact ih hbelongs
    · have hreach : s.context.graph.Reaches _ r := hrest.lift id fun _ _ hstep => hstep.1
      simp [hshut r hreach] at hslot

end Held

/-! ## What is returned -/

theorem mem_heldVariables_iff {captures : Captures} {escaping : PathSet} :
    y ∈ heldVariables captures escaping ↔
    ∃ e ∈ escaping, ReflTransGen captures.held.Adj e y := by
  have hfold : ∀ (paths : List Path) (held : PathSet),
      y ∈ paths.foldl (fun held path => held.insert path ∪ captures.capturedBy path) held ↔
        y ∈ held ∨ ∃ e ∈ paths, ReflTransGen captures.held.Adj e y := by
    intro paths
    induction paths with
    | nil => simp
    | cons path paths ih =>
      intro held
      have hclosure : ReflTransGen captures.held.Adj path y ↔
          path = y ∨ y ∈ captures.capturedBy path := by
        rw [Captures.capturedBy, Digraph.mem_closure_iff, Relation.reflTransGen_iff_eq_or_transGen]
        grind
      rw [List.foldl_cons, ih, Std.ExtTreeSet.mem_union_iff, Std.ExtTreeSet.mem_insert,
        Std.compare_eq_iff_eq]
      simp only [List.mem_cons, exists_eq_or_imp, hclosure]
      grind
  rw [heldVariables, hfold]
  simp

/-- Where every capture is followed, so is what members have captured. -/
theorem gathers_catches {captured : List Path} : Gathers X function s fun y =>
    ∃ e ∈ captured, ReflTransGen s.context.captures.Catches e y := by
  rintro y n - ⟨e, he, hreach⟩ - z - hadj
  exact ⟨e, he, hreach.tail ⟨n, hadj⟩⟩

/-- Where all assignments are to whole variables, what variables have captured is enough. -/
theorem gathers_held (hsound : X.Sound function)
    (hassigns : X.env.owner.AssignsVariables fun id => ∃ position, X.visits position id)
    (escaping : PathSet) :
    Gathers X function s (· ∈ heldVariables s.context.captures escaping) := by
  rintro y n ⟨site, ty, hbinds⟩ hy hinto z - hadj
  have hwhole : n = .whole := by
    rcases hinto with hwhole | ⟨id, node, target, value, hvisits, hnode, hexpr, hpath⟩
    · exact hwhole
    · -- The variable that is assigned to is the one with the path.
      obtain ⟨place, w, hplace, hvar⟩ := hassigns id node target value ⟨_, hvisits⟩
        (env_node_eq_ok_iff.1 hnode) hexpr
      have heq := Option.some.inj (eq_some_of_placePath? (.var hplace hvar) hpath)
      obtain ⟨site', hbinds'⟩ := binds_of_var hsound.sited (env_node_eq_ok_iff.2 hplace) hvar
      obtain ⟨rfl, -⟩ := hsound.sited.apart hbinds hbinds' heq
      exact Path.append_right_inj.1 heq
  rw [hwhole, Path.append_whole] at hadj
  obtain ⟨e, he, hreach⟩ := mem_heldVariables_iff.1 hy
  exact mem_heldVariables_iff.2 ⟨e, he, hreach.tail hadj⟩

/-- A function that goes through no references, and gives none to calls, nor to heap memory if this
is not checked, returns references to its own variables. Each of them is found from those that the
violation lists when what members have captured is followed too, and is listed itself if all
assignments are to whole variables. -/
theorem exists_variable_of_returnEscape {items : List Item} {assembly : Program.Assembly}
    (hitems : Program.ofItems items = .ok assembly) {owner : Owner}
    (howner : owner ∈ assembly.program.owners) {function : Function}
    (hkind : owner.kind = .function function)
    (hapart : ∀ other ∈ assembly.program.owners, other.id ≠ owner.id →
      ∀ f, other.kind = .function f →
      f.path.Apart function.path) (hneat : owner.Neat assembly.declarations function)
    {ids : List NodeId} (hwalk : owner.walk = .ok ids) (hnodup : ids.Nodup)
    {options : Options} (henclosed : owner.Enclosed assembly.declarations options (· ∈ ids))
    {context : Context}
    (hprecedes : Precedes assembly.program assembly.declarations options context owner)
    {name : Path} {span : Span} {roots : List Lifetime} {captured : List Path} {s : State}
    (h : Aborts
      (analyzeFunction (.ofFunction assembly.declarations options owner function) function)
      (.start context owner.nodes.size) (.violation (.returnEscape name span roots captured)) s)
    {r : Lifetime} (hr : r ∈ roots) (hslot : r.isSlot = true) :
    ∃ x m, owner.HasVariable function x ∧ r.path = x ++ m ∧
      (∃ y ∈ captured, Relation.ReflTransGen s.context.captures.Catches y x) ∧
      (owner.AssignsVariables (· ∈ ids) → x ∈ captured) := by
  have hsound := sound_ofOwner hitems howner hkind hneat.legible hwalk hnodup options
  have hwalkFrom := (Owner.walk_eq hkind).symm.trans hwalk
  have hmem : ∀ {id : NodeId},
    (∃ position, (Setting.ofOwner assembly.declarations options owner function).visits
      position id) → id ∈ ids := by
    rintro id ⟨_, hvisits⟩
    exact mem_walk_of_traverses hvisits hwalkFrom
  have hunrelated := hprecedes.unrelated hitems hapart
  obtain ⟨p, flow, hidle, hsteps, hflow, rfl, rfl⟩ := exists_of_returnEscape h
  obtain ⟨sources, -, -, houtlined, hlineage⟩ :=
    (Inside.here hsteps).lineage_start hsound hprecedes hunrelated
  have hsurveyed : Surveyed (.ofOwner assembly.declarations options owner function) function s := {
    sound := hsound
    tracks := fun id node hnode => (hneat.nodes.proper id node hnode).exists_tracked
    enclosed := {
      direct := fun id node hid => henclosed.direct id node (hmem hid)
      arguments :=
        fun id node callee arguments hid => henclosed.arguments id node callee arguments (hmem hid)
      initializers := fun hcheck id node value hid =>
        henclosed.initializers hcheck id node value (hmem hid) }
    outlined := houtlined
    attested := (Inside.here hsteps).attested (coherent_start context owner.nodes.size) rfl
      (by simp [flowAt_start]) }
  have hstart := orderly_start (X := .ofOwner assembly.declarations options owner function)
    hprecedes owner.nodes.size
  have hsealed : options.checkHeapStores = true → AllSealed context p s := fun hcheck =>
    hsteps.allSealed hsound hunrelated hcheck hstart rfl fun id node value _ _ hflow => by
      simp [flowAt_start] at hflow
  obtain ⟨l, hl, hroot⟩ := mem_returnRoots_iff.1 (Std.ExtTreeSet.mem_toList.1 hr)
  obtain ⟨hreach, -⟩ := Outlives.mem_rootsOf_iff.1 hroot
  obtain ⟨m, extent, hextent, rfl, -⟩ := Bundle.mem_tracked_iff.1 hl
  -- The returned value belongs to what it holds on to, and so does all that it gets to.
  have hbelongs : ∀ {U : Path → Prop}, (∀ y ∈ flow.escaping, U y) →
      Gathers (.ofOwner assembly.declarations options owner function) function s U →
      ∃ y n, owner.HasVariable function y ∧ r.path = y ++ n ∧ U y := by
    intro U hescaping hgathers
    have hreturned :=
      hsurveyed.belongs (.root (by simp)) hflow (fun y hy _ => hescaping y hy) hextent
    have hend :=
      hreturned.reaches hsurveyed hunrelated hlineage (lasts_orderly.steps hsteps hstart) hidle
        hsealed hgathers hreach hslot
    exact hend.of_local (.inl (by simpa [Lifetime.isSlot] using hslot))
  have hlisted : ∀ y ∈ flow.escaping, y ∈ heldVariables s.context.captures flow.escaping :=
    fun y hy => mem_heldVariables_iff.2 ⟨y, hy, .refl⟩
  obtain ⟨x, n, hvariable, hpath, hfound⟩ := hbelongs
    (fun y hy => ⟨y, Std.ExtTreeSet.mem_toList.2 (hlisted y hy), .refl⟩) gathers_catches
  refine ⟨x, n, hvariable, hpath, hfound, fun hassigns => ?_⟩
  obtain ⟨x', n', ⟨site', ty', hbinds'⟩, hpath', hfound'⟩ := hbelongs hlisted
    (gathers_held hsound (fun id node target value hid => hassigns id node target value (hmem hid))
      flow.escaping)
  obtain ⟨site, ty, hbinds⟩ := hvariable
  obtain ⟨rfl, -⟩ := hsound.sited.apart hbinds hbinds' (hpath.symm.trans hpath')
  exact Std.ExtTreeSet.mem_toList.2 hfound'

/-- Decides that the nodes go through no references. -/
def isEnclosed (decls : Declarations) (options : Options) (owner : Owner) (ids : List NodeId) :
    Bool :=
  ids.all fun id => (owner.nodes.get? id).all fun node =>
    match node.expr with
    | .dereference _ | .index _ _ => false
    | .call _ arguments => arguments.all fun argument => decide (¬ owner.Refers decls argument)
    | .new (some value) => options.checkHeapStores || decide (¬ owner.Refers decls value)
    | _ => true

theorem enclosed_of_isEnclosed {decls : Declarations} {options : Options} {ids : List NodeId}
    (h : isEnclosed decls options owner ids = true) :
    owner.Enclosed decls options (· ∈ ids) := by
  have hall : ∀ id ∈ ids, ∀ node, owner.nodes.get? id = some node → _ :=
      fun id hid node hnode =>
    (Option.all_eq_true _ _).1 (List.all_eq_true.1 h id hid) node hnode
  refine ⟨fun id node hid hnode => ⟨fun target hexpr => ?_, fun target subscript hexpr => ?_⟩,
    fun id node callee arguments hid hnode hexpr argument hargument => ?_,
    fun hcheck id node value hid hnode hexpr => ?_⟩
  all_goals
    have hnode := hall id hid node hnode
    simp only [hexpr] at hnode
  · cases hnode
  · cases hnode
  · simpa using List.all_eq_true.1 hnode argument hargument
  · simpa [hcheck] using hnode

/-- What is said to escape where a function returns it. -/
def escaped? : Abort → Option (List Lifetime × List Path)
  | .violation (.returnEscape _ _ roots captured) => some (roots, captured)
  | _ => none

theorem exists_of_escaped? {abort : Abort} {roots : List Lifetime} {captured : List Path}
    (h : escaped? abort = some (roots, captured)) :
    ∃ name span, abort = .violation (.returnEscape name span roots captured) := by
  unfold escaped? at h
  split at h <;> cases h
  exact ⟨_, _, rfl⟩

/-- The last part of the program is its only function, the function goes through no references, and
certain data escapes from it. -/
def Leaks (items : List Item) (P : Owner → List NodeId → List Lifetime → List Path → Prop) :
    Prop :=
  ∃ assembly, Program.ofItems items = .ok assembly ∧ ∃ owner ∈ assembly.program.owners,
    assembly.program.Only owner ∧ ∃ function, owner.kind = .function function ∧
    owner.LooksNeat assembly.declarations (fun _ => 0) function ∧
    ∃ ids, owner.walk = .ok ids ∧ ids.Nodup ∧
    isEnclosed assembly.declarations {} owner ids = true ∧
    ∃ abort s, Aborts
    (analyzeFunction (.ofFunction assembly.declarations {} owner function) function)
      (.start .initial owner.nodes.size) abort s ∧
    ∃ roots captured, escaped? abort = some (roots, captured) ∧ P owner ids roots captured

instance {items : List Item} {P : Owner → List NodeId → List Lifetime → List Path → Prop}
    [∀ owner ids roots captured, Decidable (P owner ids roots captured)] :
    Decidable (Leaks items P) := by
  delta Leaks
  infer_instance

/-- No other function is in the way of the only one. -/
theorem apart_of_only {program : Program} {function : Function} (h : program.Only owner) :
    ∀ other ∈ program.owners, other.id ≠ owner.id → ∀ f, other.kind = .function f →
      f.path.Apart function.path :=
  fun _ hother hne _ hf => absurd (congrArg Owner.id (h.eq_of_function hother hf)) hne

/-- With `struct Pair { int* left; int* right; }`, the function `int* f() { x = 0; y = 0;
s = Pair { left: &x, right: new int }; p = s.right; while (true) { if (true) { p = s.left }
s = Pair { left: &y, right: p } } s.right }`. -/
def leaking : List Item := [
  .aggregate .struct "Pair" [⟨"left", .pointer .int, true⟩, ⟨"right", .pointer .int, true⟩],
  .function "f" [] (.pointer .int) (.block [
    .declare "x" (.literal (.int 0)),
    .declare "y" (.literal (.int 0)),
    .declare "s" (.record (.nominal (.single "Pair") .struct)
      [("left", .addressOf (.var "x")), ("right", .newDefault .int)]),
    .declare "p" (.member (.var "s") "right"),
    .loop (.literal (.bool true)) (.block [
      .cond (.literal (.bool true)) (.block [.assign (.var "p") (.member (.var "s") "left")]) none,
      .assign (.var "s") (.record (.nominal (.single "Pair") .struct)
        [("left", .addressOf (.var "y")), ("right", .var "p")])]),
    .member (.var "s") "right"])]

/-- With `struct S { int* a; }`, the function `int* f() { s = S { a: new int }; x = 0; s.a = &x; s.a
}`. -/
def leakingMember : List Item := [
  .aggregate .struct "S" [⟨"a", .pointer .int, true⟩],
  .function "f" [] (.pointer .int) (.block [
    .declare "s" (.record (.nominal (.single "S") .struct) [("a", .newDefault .int)]),
    .declare "x" (.literal (.int 0)),
    .assign (.member (.var "s") "a") (.addressOf (.var "x")),
    .member (.var "s") "a"])]

set_option synthInstance.maxSize 1024

/-- What comes to the returned value through whole variables is listed. What comes there through a
member of `s` is not, and is found only if the captures of the member are followed. -/
theorem variable_of_leaking : (∃ assembly owner function name span roots captured s x m,
      Program.ofItems leaking = .ok assembly ∧
      Aborts (analyzeFunction (.ofFunction assembly.declarations {} owner function) function)
        (.start .initial owner.nodes.size)
        (.violation (.returnEscape name span roots captured)) s ∧
      .root ⟨["f", "$block_0", "y"]⟩ .localSlot ∈ roots ∧
      ⟨["f", "$block_0", "y"]⟩ = x ++ m ∧ x ∈ captured) ∧
    ∃ assembly owner function name span roots captured s x m,
    Program.ofItems leakingMember = .ok assembly ∧
      Aborts (analyzeFunction (.ofFunction assembly.declarations {} owner function) function)
        (.start .initial owner.nodes.size)
        (.violation (.returnEscape name span roots captured)) s ∧
      .root ⟨["f", "$block_0", "x"]⟩ .localSlot ∈ roots ∧
      captured = [⟨["f", "$block_0", "s"]⟩] ∧ ⟨["f", "$block_0", "x"]⟩ = x ++ m ∧
      Relation.ReflTransGen s.context.captures.Catches ⟨["f", "$block_0", "s"]⟩ x := by
  constructor
  · have h : Leaks leaking fun owner ids roots _ =>
        .root ⟨["f", "$block_0", "y"]⟩ .localSlot ∈ roots ∧
          ∀ id ∈ ids, ∀ node, owner.nodes.get? id = some node →
          ∀ target ∈ node.expr.children, ∀ value ∈ node.expr.children,
          node.expr = .assignment target value →
            ∃ place, owner.nodes.get? target = some place ∧ ∃ y ∈ ["p", "s"],
              place.expr = .var ⟨["f", "$block_0", y]⟩ := by
      decide +kernel
    obtain ⟨assembly, hitems, owner, howner, honly, function, hkind, hneat, ids, hwalk, hnodup,
      henclosed, _, s, haborts, roots, captured, hescaped, hroot, hassigns⟩ := h
    obtain ⟨name, span, rfl⟩ := exists_of_escaped? hescaped
    obtain ⟨x, m, -, hpath, -, hlisted⟩ :=
      exists_variable_of_returnEscape hitems howner hkind (apart_of_only honly)
      hneat.neat hwalk hnodup (enclosed_of_isEnclosed henclosed) (precedes_of_only _ _ honly)
        haborts hroot rfl
    refine ⟨assembly, owner, function, name, span, roots, captured, s, x, m, hitems,
      haborts, hroot, hpath, hlisted fun id node target value hid hnode hexpr => ?_⟩
    obtain ⟨place, hplace, y, -, hvar⟩ :=
      hassigns id hid node hnode target (by simp [hexpr, Expr.children]) value
      (by simp [hexpr, Expr.children]) hexpr
    exact ⟨place, _, hplace, hvar⟩
  · have h : Leaks leakingMember fun _ _ roots captured =>
        .root ⟨["f", "$block_0", "x"]⟩ .localSlot ∈ roots ∧
            captured = [⟨["f", "$block_0", "s"]⟩] := by
      decide +kernel
    obtain ⟨assembly, hitems, owner, howner, honly, function, hkind, hneat, ids, hwalk, hnodup,
      henclosed, _, s, haborts, roots, _, hescaped, hroot, rfl⟩ := h
    obtain ⟨name, span, rfl⟩ := exists_of_escaped? hescaped
    obtain ⟨x, m, -, hpath, ⟨y, hy, hfound⟩, -⟩ :=
      exists_variable_of_returnEscape hitems howner hkind
      (apart_of_only honly) hneat.neat hwalk hnodup (enclosed_of_isEnclosed henclosed)
        (precedes_of_only _ _ honly)
      haborts hroot rfl
    cases List.mem_singleton.1 hy
    exact ⟨assembly, owner, function, name, span, roots, _, s, x, m, hitems, haborts, hroot, rfl,
      hpath, hfound⟩

end Flow
end Regions
