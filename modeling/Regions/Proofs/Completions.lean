import Regions.Proofs.Calls
import Regions.Proofs.Stages

/-!
# One node of an execution

Each rule of the analysis has its stages, and its last stage keeps up with the last step of the
node in an execution.

* `Visits`: the analysis comes to a node of a body that has the right shape;
* `Simulates`: the rule of the node has stages, and the last one completes them;
* `simulates_rule`: so it is for every rule.
-/

namespace Regions.Flow

variable {env : Env} {function : Function} {H : Lifetime → Lifetime → Prop} {s s₁ s' : State}
  {id target : NodeId} {node : Node} {bundle : Bundle} {value : Value} {memory memory' : Memory}
  {depth : Nat} {x : Path}

/-- The analysis comes to the node. -/
structure Visits (env : Env) (function : Function) (id : NodeId) (node : Node) (s : State) :
    Prop where
  tidy : env.declarations.Tidy
  shaped : Shaped env.declarations env.owner function
  found : env.owner.nodes.get? id = some node
  ready : ∃ first, Spans env.owner.nodes first node.expr.children id.index ∧
    Ready env function first s

def Simulates (env : Env) (function : Function) (depth : Nat) (id : NodeId) (node : Node)
    (s s' : State) : Prop :=
  ∃ s₀ s₁, Stages env function depth node.expr.operands s s₀ s₁ s' ∧
    ∀ H, Completes env function H id node s₁ s'

/-- When a node is analysed that nothing is known about yet, its rule is run. -/
theorem visits_of_runs {first last : Nat} (htidy : env.declarations.Tidy)
    (hshaped : Shaped env.declarations env.owner function)
    (hnode : env.owner.nodes.get? id = some node) (hspans : Spans env.owner.nodes first [id] last)
    (hready : Ready env function first s)
    (hrun : Runs ([id].forM (analyzeNode env depth .value)) s () s') :
    Reframes (.span env first last) s s' ∧ Ready env function last s' ∧
      ∃ below, Visits env function id node s ∧
        Runs (rule env (analyzeNode env below) .value id node.expr) s () s' := by
  rw [runs_forM_singleton_iff] at hrun
  refine ⟨reframes_of_spans hspans hrun, hready.analyze htidy hshaped hspans hrun, ?_⟩
  obtain ⟨hbelow, -⟩ := hspans.root hnode
  obtain ⟨below, found, -, hfound, hrule⟩ := runs_analyzeNode hrun (hready.fresh id hbelow.le)
  cases (env_node_eq_ok_iff.2 hnode).symm.trans hfound
  exact ⟨below, ⟨htidy, hshaped, hnode, first, hbelow, hready⟩, hrule⟩

/-! ## Parts of the proofs -/

/-- All operands are evaluated first, and nothing comes before them. -/
theorem Visits.stages (h : Visits env function id node s)
    (hoperands : node.expr.operands = node.expr.children)
    (hruns : Runs (node.expr.operands.forM (analyzeNode env depth .value)) s () s₁)
    (hafter : Grows s₁ s') : Stages env function depth node.expr.operands s s s₁ s' where
  before := Grows.refl s
  lookup := fun _ => rfl
  ready := by
    obtain ⟨first, hspans, hready⟩ := h.ready
    exact ⟨first, id.index, hoperands ▸ hspans, hready⟩
  runs := hruns
  after := hafter

theorem Visits.typeOf (h : Visits env function id node s) : env.typeOf id = .ok node.ty := by
  have hnode := env_node_eq_ok_iff.2 h.found
  rw [Env.typeOf, hnode]
  rfl

theorem Describes.unchanged (hs : Describes env function (s.edges H) s.frame memory)
    (hgrows : Grows s s') (hframe : s'.frame = s.frame) (hslots : memory'.slots = memory.slots) :
    Describes env function (s'.edges H) s'.frame memory' :=
  hs.mono (fun c x hedge => hedge.imp_left (hgrows.graph c x)) (fun q => by rw [hframe]) hslots

theorem Finishes.coversNode (h : Finishes id bundle s s')
    (hcovers : Covers (s'.edges H) bundle value) : CoversNode H s' id value := by
  obtain ⟨escaping, hflow⟩ := h.flowAt
  exact ⟨_, hflow, hcovers⟩

/-- A node whose rule only finishes, and whose value is plain. -/
theorem completes_plain (hfinishes : Finishes id bundle s s')
    (hplain : ∀ values memory value memory',
      Computes env.owner.nodes node.expr values memory value memory' → value = .plain ∧
      memory' = memory) :
    Completes env function H id node s s' := by
  intro values memory value memory' hs _ _ _ hcomputes
  obtain ⟨rfl, rfl⟩ := hplain values memory value memory' hcomputes
  refine ⟨hs.unchanged hfinishes.grows hfinishes.frame rfl, ?_, .of_heap_eq rfl⟩
  exact hfinishes.coversNode (covers_of_onHeap (Value.onHeap_plain.restrict))

/-! ## Operators, variables and members -/

section

variable (h : Visits env function id node s)

include h

theorem simulates_operator {operands : List NodeId} (hoperands : node.expr.operands = operands)
    (hchildren : node.expr.children = operands) (hplain : ∀ values memory value memory',
      Computes env.owner.nodes node.expr values memory value memory' → value = .plain ∧
      memory' = memory)
    (hrun : Runs (operator env (analyzeNode env depth) id operands) s () s') :
    Simulates env function depth id node s s' := by
  obtain ⟨s₁, bundle, hruns, hfinishes⟩ := runs_operator hrun
  refine ⟨s, s₁, h.stages (hoperands.trans hchildren.symm) ?_ hfinishes.grows, fun H => ?_⟩
  · rw [hoperands]
    exact hruns
  · exact completes_plain hfinishes hplain

theorem simulates_var (hexpr : node.expr = .var x) (hrun : Runs (readVariable env id x) s () s') :
    Simulates env function depth id node s s' := by
  obtain ⟨_, _, _⟩ := node
  cases hexpr
  have hgrows := grows_of_match env id (Coupling.readVariable trivial) s () s' hrun
  obtain ⟨ty, bundle, hty, hrecorded, hbundle⟩ := runs_readVariable h.tidy hrun
  cases h.typeOf.symm.trans hty
  have hfits := h.shaped.fitting id _ h.found
  obtain ⟨site, hbinds⟩ := hfits
  obtain ⟨first, -, hready⟩ := h.ready
  refine ⟨s, s, ?_, fun H => ?_⟩
  · exact .nil hready hgrows
  · intro values memory value memory' hs _ _ _ hcomputes
    cases hcomputes
    refine ⟨hs.unchanged hgrows hrecorded.frame rfl, ?_, .of_heap_eq rfl⟩
    obtain ⟨escaping, hflow⟩ := hrecorded.self
    refine ⟨_, hflow, Covers.restrict fun m address hrefers hslot _ => ?_⟩
    -- The bundle has what the frame says, and the frame describes the slot.
    obtain ⟨extent, hextent, hvisible⟩ := hbundle m hrefers
    exact ⟨extent, hextent,
      (hs x site _ m extent address hbinds hvisible hslot).later hgrows.graph⟩

theorem simulates_memberAccess {name : String} (hexpr : node.expr = .memberAccess target name)
    (hrun : Runs (readMember env (analyzeNode env depth) id target name) s () s') :
    Simulates env function depth id node s s' := by
  obtain ⟨_, _, _⟩ := node
  cases hexpr
  obtain ⟨s₁, flow, htarget, hflow, hfinishes⟩ := runs_readMember hrun
  refine ⟨s, s₁, h.stages rfl ?_ hfinishes.grows, fun H => ?_⟩
  · exact runs_forM_singleton_iff.2 htarget
  · intro values memory value memory' hs hcovers _ _ hcomputes
    cases hcomputes
    obtain ⟨⟨flow', hflow', hcovers⟩, -⟩ := List.forall₂_cons.1 hcovers
    cases hflow.symm.trans hflow'
    refine ⟨hs.unchanged hfinishes.grows hfinishes.frame rfl, ?_, .of_heap_eq rfl⟩
    refine hfinishes.coversNode (Covers.restrict fun m address _ hmember hheap => ?_)
    obtain ⟨extent, hextent, hrests⟩ := hcovers (Path.single name ++ m) address hmember hheap
    exact ⟨extent,
      by rw [Bundle.getElem?_scopedTo]; exact hextent, hrests.later hfinishes.grows.graph⟩

/-! ## Places -/

/-- Naming a place finds what the frame has for its path, and changes nothing else. -/
theorem Visits.place {place : NodeId} {rest : List NodeId}
    (hchildren : node.expr.children = place :: rest) {m : Path}
    (hnames : Names env.owner.nodes place x m)
    (hrun : Runs (analyzeNode env depth .place place) s () s₁) :
    Still s s₁ ∧ ∃ flow, s₁.flowAt place = some flow ∧ ∀ (q : Path) (extent : Extent),
      flow.bundle[q]? = some extent → s.frame.lookup? (x ++ (m ++ q)) = some extent := by
  obtain ⟨n, walk, hpath, hwalk, hbound⟩ := hnames.exists_depth
  obtain ⟨first, hspans, hready⟩ := h.ready
  rw [hchildren] at hspans
  have hfresh : ∀ other ∈ walk, s.flowAt other = none := fun other hother =>
    hready.fresh other (hbound _ _ hspans.head.1 other hother)
  obtain ⟨bundle, s₂, hstill, hrecorded, hbundle⟩ := runs_place hpath hwalk hfresh hrun
  obtain ⟨escaping, hflow⟩ := hrecorded.self
  refine ⟨hstill.trans hrecorded.toStill, _, hflow, fun q extent hq => ?_⟩
  rw [← Path.append_assoc]
  exact hbundle q extent hq

theorem simulates_addressOf (hexpr : node.expr = .addressOf target)
    (hrun : Runs (addressOf env (analyzeNode env depth) id target) s () s') :
    Simulates env function depth id node s s' := by
  obtain ⟨_, _, _⟩ := node
  cases hexpr
  have hmatch : ((respected_grows id).coupling env).Match
    (addressOf env (analyzeNode env depth) id target)
      (addressOf env (analyzeNode env depth) id target) :=
    Coupling.addressOf
      ((respected_grows id).leads (grows_analyzeNode env depth .place target) fun _ => trivial)
  have hgrows := grows_of_match env id hmatch s () s' hrun
  obtain ⟨s₁, flow, extent, htarget, hflow, hwhole, -, hrecorded⟩ := runs_addressOf hrun
  obtain ⟨first, -, hready⟩ := h.ready
  refine ⟨s, s, ?_, fun H => ?_⟩
  · exact .nil hready hgrows
  · intro values memory value memory' hs _ _ _ hcomputes
    cases hcomputes with
    | @addressOf _ x m _ hnames =>
      obtain ⟨hstill, flow', hflow', hbundle⟩ := h.place rfl hnames htarget
      cases hflow.symm.trans hflow'
      refine ⟨hs.unchanged hgrows (hrecorded.frame.trans hstill.frame) rfl, ?_, .of_heap_eq rfl⟩
      obtain ⟨escaping, hself⟩ := hrecorded.self
      refine ⟨_, hself, Covers.restrict fun m' address _ hvalue _ => ?_⟩
      -- The only address is that of the slot, which the extent of the place sits in.
      have hvisible := hbundle .whole extent hwhole
      rw [Path.append_whole] at hvisible
      have hslot : extent.slot = .root (x ++ m) .localSlot :=
        (hready.lawful.frame _ _ hvisible).slot
      unfold Value.reference at hvalue
      split at hvalue
      · rename_i hm'
        subst hm'
        cases hvalue
        refine ⟨.ofValue extent.slot, getElem?_ofList (List.mem_singleton_self _) ?_, .inr ?_⟩
        · intro other hother
          exact (Prod.mk.inj (List.mem_singleton.1 hother)).2
        · rw [hslot]
          exact ⟨_, rfl, rfl, .refl⟩
      · cases hvalue

end

/-! ## Struct literals and heap memory -/

/-- Each member of a literal comes from one of its fields. -/
theorem exists_field_of_mem_zip {R : NodeId → Value → Prop} {fields : List (String × NodeId)}
    {values : List Value} (h : List.Forall₂ R (fields.map Prod.snd) values)
    {member : String × Value} (hmember : member ∈ (fields.map Prod.fst).zip values) :
    ∃ field ∈ fields, field.1 = member.1 ∧ R field.2 member.2 := by
  induction fields generalizing values with
  | nil => cases hmember
  | cons field fields ih =>
    cases h with
    | cons hfirst hrest =>
      rcases List.mem_cons.1 hmember with rfl | hmember
      · exact ⟨field, List.mem_cons_self, rfl, hfirst⟩
      · obtain ⟨other, hother, hfound⟩ := ih hrest hmember
        exact ⟨other, List.mem_cons_of_mem _ hother, hfound⟩

theorem simulates_structLiteral (h : Visits env function id node s)
    {fields : List (String × NodeId)} (hexpr : node.expr = .structLiteral fields)
    (hrun : Runs (structLiteral env (analyzeNode env depth) id fields) s () s') :
    Simulates env function depth id node s s' := by
  obtain ⟨_, _, _⟩ := node
  cases hexpr
  obtain ⟨s₁, ty, bundle, hfields, hty, hfinishes, tracked, htracked, hbundle⟩ :=
    runs_structLiteral hrun
  cases h.typeOf.symm.trans hty
  have hnames := h.shaped.fitting id _ h.found
  refine ⟨s, s₁, h.stages rfl ?_ hfinishes.grows, fun H => ?_⟩
  · exact hfields
  · intro values memory value memory' hs hcovers _ _ hcomputes
    cases hcomputes
    refine ⟨hs.unchanged hfinishes.grows hfinishes.frame rfl, ?_, .of_heap_eq rfl⟩
    refine hfinishes.coversNode (Covers.restrict fun m address hrefers hvalue hheap => ?_)
    obtain ⟨member, hmember, rest, rfl, hpart⟩ := Value.record_eq_some hvalue
    obtain ⟨field, hfield, hname, flow, hflow, hcovers⟩ :=
      exists_field_of_mem_zip hcovers hmember
    obtain ⟨extent, hextent, hrests⟩ := hcovers rest address hpart hheap
    have hentry := hbundle (Declarations.tracked_of_refersAt hrefers htracked) hnames field hfield
      flow hflow rest extent hextent
    rw [hname] at hentry
    exact ⟨_, hentry, hrests.later hfinishes.grows.graph⟩

/-- What the initializer puts in new heap memory was logged, and checked on the spot. -/
theorem clean_allocate {initializer : NodeId} {initial : Node} {fields : List Field}
    {flow : NodeFlow} (htidy : env.declarations.Tidy)
    (hinitial : env.owner.nodes.get? initializer = some initial)
    (hfields : env.fields initial.ty = .ok fields)
    (hinitializes : Initializes env (env.allocation id) flow.bundle fields s s')
    (hcovers : Covers (s.edges H) flow.bundle value)
    (hfits : FitsNode env.declarations env.owner.nodes initializer value) :
    Clean env H s s' memory (memory.allocate value) where
  heap := ⟨[value], rfl⟩
  cells := by
    intro hcheck cell hcell m address hm hheap
    rw [Memory.allocate, List.drop_left, List.mem_singleton] at hcell
    subst hcell
    obtain ⟨_, hfound, hrefers⟩ := hfits
    cases hinitial.symm.trans hfound
    obtain ⟨field, hfield, rfl, -⟩ :=
      Declarations.exists_field_of_refersAt htidy hfields (hrefers m address hm)
    obtain ⟨extent, hextent, hrests⟩ := hcovers field.path address hm hheap
    have hsome : extent.value.isNone = false := by
      rcases hrests with hheap' | ⟨_, _, hsome, _⟩
      · simp [hheap] at hheap'
      · exact hsome
    obtain ⟨⟨write, hwrite, hcontainer, hstored⟩, hroots⟩ :=
      hinitializes.logged field hfield extent hextent hsome
    refine ⟨?_, write, hwrite, ?_, ?_⟩
    · -- Without further edges the check on the spot would have found the address.
      by_contra hempty
      rw [not_exists] at hempty
      simp only [not_exists] at hempty
      rw [hrests.isHeap_of_rootsOf hempty (hroots hcheck rfl)] at hheap
      cases hheap
    · rw [hcontainer]
      rfl
    · rw [hstored]
      exact hrests.later hinitializes.grows.graph

theorem simulates_new (h : Visits env function id node s) {initializer : Option NodeId}
    (hexpr : node.expr = .new initializer)
    (hrun : Runs (allocate env (analyzeNode env depth) id initializer) s () s') :
    Simulates env function depth id node s s' := by
  obtain ⟨_, ty, _⟩ := node
  cases hexpr
  obtain ⟨s₀, s₁, bundle, hbefore, hframe, hflows, hruns, hfinishes, hwrites⟩ :=
    runs_allocate hrun
  obtain ⟨first, hspans, hready⟩ := h.ready
  refine ⟨s₀, s₁,
    ⟨hbefore, fun q => by rw [hframe], ⟨first, id.index, ?_, ?_⟩, ?_, hfinishes.grows⟩,
    fun H => ?_⟩
  · exact hspans
  · exact hready.congr (fun q => by rw [hframe]) hflows
  · exact hruns
  · intro values memory value memory' hs hcovers hfits _ hcomputes
    have hcell : ∀ cell, CoversNode H s' id
        ((Value.reference (.heap cell)).restrict env.declarations ty) := fun cell =>
      hfinishes.coversNode (covers_of_onHeap (Value.onHeap_reference cell).restrict)
    cases hcomputes with
    | newDefault =>
      refine ⟨hs.unchanged hfinishes.grows hfinishes.frame rfl, hcell _,
        ⟨⟨[.plain], rfl⟩, ?_⟩⟩
      intro _ cell hmem m address hm
      rw [Memory.allocate, List.drop_left, List.mem_singleton] at hmem
      subst hmem
      cases hm
    | @newWith value _ _ =>
      refine ⟨hs.unchanged hfinishes.grows hfinishes.frame rfl, hcell _, ?_⟩
      obtain ⟨flow, initial, fields, s₂, hflow, hinitial, hfields, hinitializes, hlater⟩ :=
        hwrites _ rfl
      obtain ⟨⟨flow', hflow', hcovers⟩, -⟩ := List.forall₂_cons.1 hcovers
      cases hflow.symm.trans hflow'
      exact (clean_allocate h.tidy (env_node_eq_ok_iff.1 hinitial) hfields hinitializes hcovers
        (List.forall₂_cons.1 hfits).1).later hlater

/-! ## Blocks and declarations -/

theorem isVoid_of_refersAt {decls : Declarations} {ty : Ty} {m : Path}
    (h : decls.refersAt ty m = true) : ty.isVoid = false := by
  cases ty with
  | void => simp [Declarations.refersAt_void] at h
  | _ => rfl

theorem simulates_block (h : Visits env function id node s) {statements : List NodeId}
    (hexpr : node.expr = .block statements)
    (hrun : Runs (block env (analyzeNode env depth) id statements) s () s') :
    Simulates env function depth id node s s' := by
  obtain ⟨_, _, _⟩ := node
  cases hexpr
  obtain ⟨s₁, s₂, bundle, hstatements, habsorbs, hrecorded, hafter, hbundle⟩ :=
    runs_block hrun
  obtain ⟨first, hspans, hready⟩ := h.ready
  have hreframes := reframes_analyzeNodes hspans hstatements
  refine ⟨{ s with frame := s.frame.child }, s₁, ⟨Grows.frame s _, Frame.lookup?_child _,
    ⟨first, id.index, ?_, hready.congr (Frame.lookup?_child _) fun _ => rfl⟩, ?_,
    hafter⟩, fun H => ?_⟩
  · exact hspans
  · exact hstatements
  · intro values memory value memory' hs hcovers _ _ hcomputes
    cases hcomputes
    refine ⟨?_, ?_, .of_heap_eq rfl⟩
    · intro x site ty m extent address hbinds hlookup hslot
      rw [hrecorded.frame, habsorbs.lookup] at hlookup
      -- What is visible after the block was visible before it, and in the block to its end.
      obtain ⟨before, hbefore⟩ : ∃ before, s.frame.lookup? (x ++ m) = some before := by
        cases hchange : s₁.frame.rebindings[x ++ m]? with
        | none =>
          rw [hchange] at hlookup
          exact ⟨extent, hlookup⟩
        | some found => exact habsorbs.visible _ found hchange
      have hinner : s₁.frame.lookup? (x ++ m) = some extent := by
        rw [hreframes.getD_rebindings (.inl rfl) hbefore fun hopens =>
          hready.not_opens hbefore (hopens.earlier (Grows.frame s _))]
        change s₁.frame.rebindings[x ++ m]?.or (s.frame.lookup? (x ++ m)) = some extent at hlookup
        rw [hbefore] at hlookup
        rw [← hlookup]
        cases s₁.frame.rebindings[x ++ m]? <;> rfl
      exact (hs x site ty m extent address hbinds hinner hslot).later hafter.graph
    · obtain ⟨escaping, hself⟩ := hrecorded.self
      refine ⟨_, hself, Covers.restrict fun m address hrefers hvalue hheap => ?_⟩
      cases hlast : values.getLast? with
      | none =>
        rw [hlast] at hvalue
        cases hvalue
      | some value =>
        rw [hlast] at hvalue
        obtain ⟨last, hlast, flow, hflow, hcovers⟩ := forall₂_getLast? hcovers hlast
        obtain ⟨flow', hflow', rfl⟩ :=
          hbundle last _ hlast h.typeOf (isVoid_of_refersAt hrefers)
        have hsame : s₂.flowAt last = s₁.flowAt last := by
          unfold State.flowAt
          rw [habsorbs.recorded]
        cases (hsame.symm.trans hflow').symm.trans hflow
        obtain ⟨extent, hextent, hrests⟩ := hcovers m address hvalue hheap
        exact ⟨extent, hextent, hrests.later hafter.graph⟩

theorem simulates_declaration (h : Visits env function id node s) {initializer : NodeId}
    (hexpr : node.expr = .declaration x initializer)
    (hrun : Runs (declareVariable env (analyzeNode env depth) id x initializer) s () s') :
    Simulates env function depth id node s s' := by
  obtain ⟨_, _, _⟩ := node
  cases hexpr
  obtain ⟨s₁, flow, ty, fields, s₂, hvalue, hflow, hty, hfields, hdeclares,
      hrecorded, hafter⟩ :=
    runs_declareVariable hrun
  obtain ⟨initial, hinitial, hty⟩ := except_bind_eq_ok hty
  cases hty
  have hinitial := env_node_eq_ok_iff.1 hinitial
  have hbinds : Binds function.parameters env.owner.nodes x (some id) initial.ty :=
    .declaration h.found rfl hinitial
  obtain ⟨first, hspans, hready⟩ := h.ready
  have hready₁ := hready.analyze h.tidy h.shaped hspans hvalue
  refine ⟨s, s₁, h.stages rfl (runs_forM_singleton_iff.2 hvalue) hafter, fun H => ?_⟩
  intro values memory value memory' hs hcovers hfits _ hcomputes
  cases hcomputes with
  | @declaration _ _ value _ =>
    obtain ⟨⟨flow', hflow', hinitially⟩, -⟩ := List.forall₂_cons.1 hcovers
    obtain ⟨⟨initial', hinitial', hrefers⟩, -⟩ := List.forall₂_cons.1 hfits
    cases hflow.symm.trans hflow'
    cases hinitial.symm.trans hinitial'
    have hnow : Covers (s'.edges H) flow.bundle value :=
      hinitially.mono fun c l hedge => hedge.imp_left (hafter.graph c l)
    refine ⟨?_, ?_, .of_heap_eq rfl⟩
    · intro y site ty m extent address hbinds' hlookup hslot
      rw [hrecorded.frame] at hlookup
      rcases hdeclares.lookup (y ++ m)
        with hsame | ⟨field, hfield, hpath, extent', hfound, halias⟩
      · -- A path that was visible before belongs to another variable.
        rw [hsame] at hlookup
        have hne : y ≠ x := by
          rintro rfl
          exact hready₁.closed _ extent hlookup id _ y initializer m le_rfl
            (env_node_eq_ok_iff.2 h.found) rfl rfl
        rw [Memory.write] at hslot
        simp only [if_neg hne] at hslot
        exact (hs y site ty m extent address hbinds' hlookup hslot).later hafter.graph
      · -- The field is aliased to what the initializer has there.
        obtain ⟨rfl, -, rfl⟩ := h.shaped.apart hbinds' hbinds hpath
        obtain rfl := Path.append_right_inj.1 hpath
        cases hlookup.symm.trans hfound
        simp only [Memory.write, if_true] at hslot
        obtain ⟨field', hfield', hpath', htracked⟩ :=
          Declarations.exists_field_of_refersAt h.tidy hfields (hrefers field.path address hslot)
        obtain rfl := Declarations.field_eq_of_path_eq h.tidy hfields hfield' hfield hpath'
        obtain ⟨hsome, initial, hentry, hunified⟩ := halias htracked
        rw [← hrecorded.graph] at hunified
        exact hnow.rests hslot hentry (Outlives.leads_of_unified hunified hsome)
    · obtain ⟨escaping, hself⟩ := hrecorded.self
      exact ⟨_, hself, covers_of_onHeap (Value.onHeap_plain.restrict)⟩

/-! ## Assignments -/

/-- After the fields of a place were assigned, the frame describes the variable with its new
part. -/
theorem AssignsLocals.describes {places assigned : Bundle} {fields : List Field} {base : Path}
    {site : Option NodeId} {ty : Ty} (hassigns : AssignsLocals places assigned fields s s')
    (hshaped : Shaped env.declarations env.owner function)
    (hplaces : ∀ (q : Path) (extent : Extent), places[q]? = some extent →
      extent.slot.path = x ++ (base ++ q))
    (hbinds : Binds function.parameters env.owner.nodes x site ty)
    (hfields : ∀ m address, value m = some address → ∃ field ∈ fields, field.path = m ∧
      field.tracked = true)
    (hsome : ∀ m address extent, value m = some address →
      s'.frame.lookup? (x ++ (base ++ m)) = some extent → extent.value.isNone = false)
    (hcovers : Covers (s'.edges H) assigned value)
    (hs : Describes env function (s'.edges H) s.frame memory) :
    Describes env function (s'.edges H) s'.frame
      (memory.write x ((memory.slots x).overwrite base value)) := by
  -- A variable that got a new version is the assigned one, at a member that was assigned.
  have hrebinds : ∀ {y m : Path} {site' ty'},
    Binds function.parameters env.owner.nodes y site' ty' →
      Rebinds s s' (y ++ m) → y = x ∧ ∃ field ∈ fields, m = base ++ field.path ∧
        ∃ new, assigned[field.path]? = some new ∧ BoundTo s' (y ++ m) new.value := by
    intro y m site' ty' hbinds' hre
    obtain ⟨field, hfield, -, place, new, hplace, hnew, hpath, hbound⟩ := hassigns.bound _ hre
    rw [hplaces _ _ hplace] at hpath
    obtain ⟨rfl, -, -⟩ := hshaped.apart hbinds hbinds' hpath
    exact ⟨rfl, field, hfield, (Path.append_right_inj.1 hpath).symm, new, hnew, hbound⟩
  intro y site' ty' m extent address hbinds' hlookup hslot
  rcases Memory.slots_assign hslot with ⟨rfl, rest, rfl, hpart⟩ | ⟨hother, hold⟩
  · obtain ⟨field, hfield, rfl, htracked⟩ := hfields rest address hpart
    obtain ⟨place, -, hplace, -⟩ := hassigns.given field hfield
    obtain ⟨entries, hentries, hlog⟩ := hassigns.log
    have hre : Rebinds s s' (y ++ (base ++ field.path)) := (rebinds_iff_of_append hentries _).2
        ((hlog _).2 ⟨field, hfield, htracked, place, hplace, hplaces _ _ hplace⟩)
    obtain ⟨-, field', -, hpath, new, hnew, found, hfound, hunified⟩ := hrebinds hbinds' hre
    rw [← Path.append_right_inj.1 hpath] at hnew
    cases hlookup.symm.trans hfound
    exact hcovers.rests hpart hnew (Outlives.leads_of_unified hunified (hsome _ _ _ hpart hlookup))
  · have hkept : ¬ Rebinds s s' (y ++ m) := by
      intro hre
      obtain ⟨hy, field, -, hm, -⟩ := hrebinds hbinds' hre
      exact hother hy field.path hm
    rw [hassigns.kept _ hkept] at hlookup
    exact hs y site' ty' m extent address hbinds' hlookup hold

theorem simulates_assignment (h : Visits env function id node s) {source : NodeId}
    (hexpr : node.expr = .assignment target source) (hlawful : Lawful (DataPath env function) s')
    (hrun : Runs (assign env (analyzeNode env depth) id target source) s () s') :
    Simulates env function depth id node s s' := by
  obtain ⟨_, _, _⟩ := node
  cases hexpr
  obtain ⟨s₀, s₁, places, assigned, _, ty, fields, s₂, htarget, hsource, hplaces,
    hassigned, -, hty, hfields, hassigns, hrecorded, hafter⟩ := runs_assign hrun
  obtain ⟨⟨x₀, m₀, hnames₀⟩, targetNode, sourceNode, htargetNode,
      hsourceNode, hsame⟩ :=
    h.shaped.fitting id _ h.found
  obtain ⟨_, hfound, hty⟩ := except_bind_eq_ok hty
  cases htargetNode.symm.trans (env_node_eq_ok_iff.1 hfound)
  cases hty
  obtain ⟨first, hspans, hready⟩ := h.ready
  obtain ⟨htree, hrest⟩ := hspans.head
  have hstill := (h.place rfl hnames₀ htarget).1
  refine ⟨s₀, s₁, ⟨grows_analyzeNode env depth .place target s () s₀ htarget,
    fun q => by rw [hstill.frame], ⟨target.index + 1, id.index, ?_,
      hready.analyze h.tidy h.shaped htree htarget⟩, ?_, hafter⟩, fun H => ?_⟩
  · exact hrest
  · exact runs_forM_singleton_iff.2 hsource
  · intro values memory value memory' hs hcovers hfits htyped hcomputes
    cases hcomputes with
    | @assignment _ _ x base value _ hnames =>
      obtain ⟨⟨flow, hflow, hcovers⟩, -⟩ := List.forall₂_cons.1 hcovers
      obtain ⟨⟨_, hfound, hrefers⟩, -⟩ := List.forall₂_cons.1 hfits
      cases hassigned.symm.trans hflow
      cases hsourceNode.symm.trans hfound
      obtain ⟨-, flow, hflow, hbundle⟩ := h.place rfl hnames htarget
      cases hplaces.symm.trans
        ((grows_analyzeNode env depth .value source s₀ () s₁ hsource).recorded
        target flow hflow)
      -- The place is a local variable or a member of one, so its extents sit in slots.
      have hslots : ∀ (q : Path) (extent : Extent), places.bundle[q]? = some extent →
          extent.slot = .root (x ++ (base ++ q)) .localSlot := fun q extent hq =>
        (hready.lawful.frame _ _ (hbundle q extent hq)).slot
      have hlocals := assignsLocals_fields (fun field _ place hplace => by
        rw [hslots _ _ hplace]
        rfl) hassigns
      obtain ⟨site, ty, hbinds⟩ := h.shaped.binds_of_names hnames
      refine ⟨?_, ?_, .of_heap_eq rfl⟩
      · have hgraph : ∀ c l, s₁.edges H c l → s₂.edges H c l := fun c l hedge =>
          hedge.imp_left (hlocals.graph c l)
        have hdescribes :=
          hlocals.describes h.shaped (fun q extent hq => by rw [hslots q extent hq]; rfl)
          hbinds ?_ ?_ (hcovers.mono hgraph) (hs.mono hgraph (fun _ => rfl) rfl)
        · refine hdescribes.mono (fun c l hedge => ?_) (fun q => by rw [hrecorded.frame]) rfl
          rw [State.edges, hrecorded.graph]
          exact hedge
        · intro m address hpart
          refine Declarations.exists_field_of_refersAt h.tidy hfields ?_
          rw [hsame]
          exact hrefers m address hpart
        · -- There is a reference at the path, so that its data has a lifetime.
          intro m address extent hpart hlookup
          have hslot : (memory.write x ((memory.slots x).overwrite base value)).slots
            x (base ++ m) =
              some address := by
            simp only [Memory.write, if_true, Value.overwrite_append, hpart]
          have hdata := (hlawful.frame _ _ (hrecorded.frame ▸ hlookup)).data
          by_contra hnone
          have hplain := hdata (by simpa using hnone) x site ty (base ++ m) hbinds rfl
          rw [htyped x site ty _ address hbinds hslot] at hplain
          cases hplain
      · obtain ⟨escaping, hself⟩ := hrecorded.self
        exact ⟨_, hself, covers_of_onHeap (Value.onHeap_plain.restrict)⟩

/-! ## Branches -/

/-- The frame after a join describes what a frame before it describes, if the joined versions lead
to the changes that were made there. -/
theorem RenewsAll.describes {paths : List Path} {data : Path → Extent → List Lifetime}
    (h : RenewsAll data paths s s') (inner : Frame) (changes : PathMap Extent)
    (hdata : ∀ q before, (changes[q]?.getD before).value ∈ data q before)
    (hpaths : ∀ q, q ∉ paths → changes[q]? = none)
    (hinner : ∀ q before, s.frame.lookup? q = some before →
      inner.lookup? q = some (changes[q]?.getD before))
    (hs : Describes env function (s'.edges H) inner memory) :
    Describes env function (s'.edges H) s'.frame memory := by
  intro x site ty m extent address hbinds hlookup hslot
  by_cases hmem : x ++ m ∈ paths
  · obtain ⟨before, t, hbefore, hafter, -, htied⟩ := h.renewed hmem
    cases hlookup.symm.trans hafter
    exact (hs x site ty m _ address hbinds (hinner _ before hbefore) hslot).lead
      (leads_of_tied rfl (htied _ (hdata _ before)))
  · rw [h.kept hmem] at hlookup
    have hvisible := hinner _ extent hlookup
    rw [hpaths _ hmem] at hvisible
    exact hs x site ty m extent address hbinds hvisible hslot

/-- The analysis of a node with branches: first the condition, then each branch on its own; whatever
was done in the end, `s'` describes it. -/
structure Branches (env : Env) (function : Function) (depth : Nat) (id : NodeId) (node : Node)
    (condition positive : NodeId) (negative : Option NodeId) (s s₁ s' : State) : Prop where
  condition : Stages env function depth [condition] s s s₁ s'
  taken : ∀ branch, branch = positive ∨ negative = some branch → ∃ b₀ b₁,
    Stages env function depth [branch] s₁ b₀ b₁ s' ∧
    (∀ H memory, Describes env function (b₁.edges H) b₁.frame memory →
      Describes env function (s'.edges H) s'.frame memory) ∧
    ∀ H value, CoversNode H b₁ branch value →
      CoversNode H s' id (value.restrict env.declarations node.ty)
  skipped : negative = none →
    ∀ H memory, Describes env function (s₁.edges H) s₁.frame memory →
    Describes env function (s'.edges H) s'.frame memory
  flow : ∃ flow, s'.flowAt id = some flow

theorem not_mem_keys_union {changes changes' : PathMap Extent} {q : Path}
    (h : q ∉ (changes ∪ changes').keys) : changes[q]? = none ∧ changes'[q]? = none := by
  rw [Std.ExtTreeMap.mem_keys, Std.ExtTreeMap.mem_union_iff, not_or] at h
  exact ⟨Std.ExtTreeMap.getElem?_eq_none h.1, Std.ExtTreeMap.getElem?_eq_none h.2⟩

/-- What the end of a branch describes, the joined frame describes. -/
theorem describes_of_branch {first last : Nat} {t s₃ s₄ : State} {outer : Frame}
    {branch : NodeId} {paths : List Path} {data : Path → Extent → List Lifetime}
    (hready : Ready env function first { t with frame := outer.child })
    (hspans : Spans env.owner.nodes first [branch] last)
    (hrun : Runs (analyzeNode env depth .value branch) { t with frame := outer.child } () s₁)
    (hjoins : RenewsAll data paths s₃ s₄) (houter : s₃.frame = outer)
    (hdata : ∀ q before, (s₁.frame.rebindings[q]?.getD before).value ∈ data q before)
    (hpaths : ∀ q, q ∉ paths → s₁.frame.rebindings[q]? = none) (hgrows : Grows s₁ s₄)
    (hfinishes : Finishes id bundle s₄ s')
    (hs : Describes env function (s₁.edges H) s₁.frame memory) :
    Describes env function (s'.edges H) s'.frame memory := by
  have hs₄ : Describes env function (s₄.edges H) s₄.frame memory := by
    refine hjoins.describes s₁.frame _ hdata hpaths (fun q before hbefore => ?_)
      (hs.mono (fun c l hedge => hedge.imp_left (hgrows.graph c l)) (fun _ => rfl) rfl)
    rw [houter] at hbefore
    exact Reframes.getD_rebindings (s := { t with frame := outer }) (.inl rfl)
      (reframes_of_spans hspans hrun)
      hbefore (hready.not_opens ((Frame.lookup?_child _ _).trans hbefore))
  exact hs₄.unchanged hfinishes.grows hfinishes.frame rfl

/-- The joined value is that of the branch that was taken, if there are two. -/
theorem coversNode_of_branch {s₄ : State} {branch : NodeId}
    (hgrows : Grows s₁ s₄) (hfinishes : Finishes id bundle s₄ s')
    (hflow : ∀ m, env.declarations.refersAt node.ty m = true → ∃ flow joined,
      s₄.flowAt branch = some flow ∧ bundle[m]? = some joined ∧ ∀ extent,
        flow.bundle[m]? = some extent → s'.context.graph.Leads joined.value extent.value)
    (hcovers : CoversNode H s₁ branch value) :
    CoversNode H s' id (value.restrict env.declarations node.ty) := by
  refine hfinishes.coversNode (Covers.restrict fun m address hrefers hvalue hheap => ?_)
  obtain ⟨found, hfound, hcovers⟩ := hcovers
  obtain ⟨flow, joined, hflow, hjoined, hleads⟩ := hflow m hrefers
  cases (hgrows.recorded _ _ hfound).symm.trans hflow
  obtain ⟨extent, hextent, hrests⟩ := hcovers m address hvalue hheap
  exact ⟨joined, hjoined, (hrests.later (hgrows.trans hfinishes.grows).graph).lead
    (hleads extent hextent)⟩

/-- At the end of branches, the node gets a value that leads to those of the branches. -/
theorem finishes_of_branches (htidy : env.declarations.Tidy) {positive : NodeId}
    {negative : Option NodeId} {ty : Ty} (hvoid : negative = none → ty = .void)
    (h : (negative = none ∨ ty.isVoid = true) ∧ Runs (recordVoid id) s () s' ∨
      ∃ other, negative = some other ∧ Runs (joinBranches env id positive other ty) s () s') :
    ∃ bundle, Finishes id bundle s s' ∧ ∀ branch, branch = positive ∨
    negative = some branch →
      ∀ m, env.declarations.refersAt ty m = true →
      ∃ flow joined, s.flowAt branch = some flow ∧
        bundle[m]? = some joined ∧ ∀ extent, flow.bundle[m]? = some extent →
          s'.context.graph.Leads joined.value extent.value := by
  rcases h with ⟨hempty, h⟩ | ⟨other, rfl, h⟩
  · refine ⟨∅, finishes_of_runs (Grows.refl _) rfl h, fun branch _ m hrefers => ?_⟩
    have hty : ty = .void :=
      hempty.elim hvoid fun hvoid => by cases ty <;> first | rfl | cases hvoid
    rw [hty, Declarations.refersAt_void] at hrefers
    cases hrefers
  · obtain ⟨fields, positiveFlow, negativeFlow, hfields, hpositive, hnegative, hjoins⟩ :=
      runs_joinBranches h
    refine ⟨_, hjoins.finishes, fun branch hbranch m hrefers => ?_⟩
    obtain ⟨joined, hjoined, hleads⟩ := hjoins.leads htidy hfields hrefers
    rcases hbranch with rfl | hbranch
    · exact ⟨positiveFlow, joined, hpositive, hjoined,
        fun extent hextent => hleads extent (.inl hextent)⟩
    · cases hbranch
      exact ⟨negativeFlow, joined, hnegative, hjoined,
        fun extent hextent => hleads extent (.inr hextent)⟩

section

variable {condition positive : NodeId} {negative : Option NodeId}
  (h : Visits env function id node s) (hexpr : node.expr = .cond condition positive negative)
  (hrun : Runs (cond env (analyzeNode env depth) id condition positive negative) s () s')

include h hexpr hrun

theorem branches_of_runs :
    ∃ s₁, Branches env function depth id node condition positive negative s s₁ s' := by
  obtain ⟨_, nodeTy, _⟩ := node
  cases hexpr
  obtain ⟨s₁, s₂, s₃, s₄, ty, ⟨hcondition, hpositive, hnegative⟩, hmerge, hty,
    hend⟩ := runs_cond hrun
  cases h.typeOf.symm.trans hty
  have hjoins := renewsAll_mergeBranches hmerge
  obtain ⟨bundle, hfinishes, hleads⟩ :=
    finishes_of_branches h.tidy (h.shaped.fitting id _ h.found) hend
  obtain ⟨first, hspans, hready⟩ := h.ready
  obtain ⟨hspansCondition, hspans⟩ := hspans.head
  obtain ⟨hspansPositive, hspansNegative⟩ := hspans.head
  have hready₁ := hready.analyze h.tidy h.shaped hspansCondition hcondition
  have hreadyPositive : Ready env function (condition.index + 1)
      { s₁ with frame := s₁.frame.child } :=
    hready₁.congr (Frame.lookup?_child _) fun _ => rfl
  have hgrowsPositive : Grows s₁ s₂ := (Grows.frame s₁ _).trans
    (grows_analyzeNode env depth .value positive _ () s₂ hpositive)
  have hready₂ := hreadyPositive.analyze h.tidy h.shaped hspansPositive hpositive
  have hreadyNegative : Ready env function (positive.index + 1)
      { s₂ with frame := s₁.frame.child } :=
    hready₁.of_lookup hspansPositive.le hready₂.fresh (Frame.lookup?_child _)
      hready₂.lawful.recorded
  have hgrows₃ : Grows s₃ s₄ := (Grows.frame s₃ _).trans hjoins.grows
  have hgrows₂ : Grows s₂ s₄ := by
    refine Grows.trans ?_ hgrows₃
    cases negative with
    | none => exact hnegative ▸ Grows.frame s₂ _
    | some branch => exact (Grows.frame s₂ _).trans (grows_analyzeNode env depth .value branch _
        () s₃ hnegative)
  refine ⟨s₁, ⟨⟨Grows.refl s, fun _ => rfl, ⟨first, _, hspansCondition, hready⟩,
    runs_forM_singleton_iff.2 hcondition,
    hgrowsPositive.trans (hgrows₂.trans hfinishes.grows)⟩, ?_, ?_, ?_⟩⟩
  · rintro branch (rfl | rfl)
    · refine ⟨{ s₁ with frame := s₁.frame.child }, s₂,
        ⟨Grows.frame s₁ _, Frame.lookup?_child _,
        ⟨_, _, hspansPositive, hreadyPositive⟩, runs_forM_singleton_iff.2 hpositive,
        hgrows₂.trans hfinishes.grows⟩, fun H memory hs => ?_, fun H value hcovers => ?_⟩
      · exact describes_of_branch hreadyPositive hspansPositive hpositive hjoins rfl
          (by simp [sides]) (fun q hq => (not_mem_keys_union hq).1) hgrows₂ hfinishes hs
      · exact coversNode_of_branch hgrows₂ hfinishes (hleads branch (.inl rfl)) hcovers
    · refine ⟨{ s₂ with frame := s₁.frame.child }, s₃,
        ⟨hgrowsPositive.trans (Grows.frame s₂ _),
        Frame.lookup?_child _, ⟨_, _, hspansNegative, hreadyNegative⟩,
        runs_forM_singleton_iff.2 hnegative,
        hgrows₃.trans hfinishes.grows⟩, fun H memory hs => ?_, fun H value hcovers => ?_⟩
      · exact describes_of_branch hreadyNegative hspansNegative hnegative hjoins rfl
          (by simp [sides]) (fun q hq => (not_mem_keys_union hq).2) hgrows₃ hfinishes hs
      · exact coversNode_of_branch hgrows₃ hfinishes (hleads branch (.inr rfl)) hcovers
  · rintro rfl H memory hs
    -- A variable that the branch changes leads to what it was before as well.
    refine Describes.unchanged
      (hjoins.describes s₁.frame ∅ (fun q before => ?_) (by simp) (by simp)
      (hs.mono (fun c l hedge => hedge.imp_left ?_) (fun _ => rfl) rfl))
      hfinishes.grows hfinishes.frame rfl
    · simp [sides, show s₃.frame.rebindings = ∅ from hnegative ▸ rebindings_child s₁.frame]
    · exact (hgrowsPositive.trans hgrows₂).graph c l
  · obtain ⟨escaping, hflow⟩ := hfinishes.flowAt
    exact ⟨_, hflow⟩

theorem simulates_cond : Simulates env function depth id node s s' := by
  obtain ⟨_, _, _⟩ := node
  cases hexpr
  obtain ⟨s₁, hbranches⟩ := branches_of_runs h rfl hrun
  refine ⟨s, s₁, ?_, fun H => ?_⟩
  · exact hbranches.condition
  · intro values memory value memory' hs _ _ _ hcomputes
    cases hcomputes
    obtain ⟨flow, hflow⟩ := hbranches.flow
    exact ⟨hbranches.skipped rfl H memory hs,
      ⟨flow, hflow, covers_of_onHeap Value.onHeap_plain.restrict⟩, .of_heap_eq rfl⟩

end

/-! ## Every rule -/

/-- Calls, loops and jumps are executed by rules of their own. -/
theorem completes_of_not_computes (hnone : ∀ values memory value memory',
      ¬ Computes env.owner.nodes node.expr values memory value memory') :
    Completes env function H id node s s' :=
  fun values memory value memory' _ _ _ _ hcomputes =>
    absurd hcomputes (hnone values memory value memory')

theorem simulates_rule (h : Visits env function id node s) (hgrows : Grows s s')
    (hlawful : Lawful (DataPath env function) s')
    (hrun : Runs (rule env (analyzeNode env depth) .value id node.expr) s () s') :
    Simulates env function depth id node s s' := by
  obtain ⟨first, -, hready⟩ := h.ready
  -- Nothing comes before these nodes, and rules of their own say what becomes of them.
  have hnone : node.expr.operands = [] → (∀ values memory value memory',
      ¬ Computes env.owner.nodes node.expr values memory value memory') →
      Simulates env function depth id node s s' := fun hoperands hnone =>
    ⟨s, s, hoperands ▸ .nil hready hgrows, fun H => completes_of_not_computes hnone⟩
  obtain ⟨expr, ty, span⟩ := node
  cases expr with
  | literal | unary | binary =>
    refine simulates_operator h rfl rfl (fun _ _ _ _ hcomputes => ?_) hrun
    cases hcomputes
    exact ⟨rfl, rfl⟩
  | var => exact simulates_var h rfl hrun
  | addressOf => exact simulates_addressOf h rfl hrun
  | dereference | index => exact (h.shaped.fitting id _ h.found).elim
  | memberAccess => exact simulates_memberAccess h rfl hrun
  | new => exact simulates_new h rfl hrun
  | structLiteral => exact simulates_structLiteral h rfl hrun
  | call =>
    obtain ⟨s₁, _, _, harguments, _, _, _, bundle, hfinishes⟩ := runs_call hrun
    refine ⟨s, s₁, h.stages rfl harguments hfinishes.grows,
      fun H => completes_of_not_computes ?_⟩
    intro values memory value memory' hcomputes
    cases hcomputes
  | block => exact simulates_block h rfl hrun
  | declaration => exact simulates_declaration h rfl hrun
  | assignment => exact simulates_assignment h rfl hlawful hrun
  | cond => exact simulates_cond h rfl hrun
  | loop | breakLoop | continueLoop => exact hnone rfl fun _ _ _ _ hcomputes => by cases hcomputes

end Regions.Flow
