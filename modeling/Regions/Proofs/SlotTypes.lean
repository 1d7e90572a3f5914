import Mathlib.Data.Option.Basic
import Regions.Proofs.Completeness

/-!
# Types of storage

Where dereferences are not resolved, the analysis of a well-built function keeps to types: a binding
has data exactly if the type at its path carries references, only such paths get new versions, and a
slot that a result refers to has room for what the type of the result says.

* `Owner.Neat`: types have layouts, and no variable has the name of a block;
* `WellBuilt`: functions whose nodes, variables and aggregates have their types;
* `Denotes`, `Houses`: the type at the path of a variable, and the types that its storage has room
  for;
* `Suits`: an extent suits a type;
* `TypedState`: the invariant;
* `Inside.typedState`: every state that is come by keeps to types.
-/

namespace Regions

variable {m x : Path} {owner : Owner} {site : Option NodeId} {extent : Extent}

namespace Declarations

variable {decls : Declarations} {ty inner : Ty} {names : List String} {fields : List Field}
  {field : Field}

theorem Proper.typeAlong? (h : decls.Proper ty) (hinner : decls.typeAlong? ty names = some inner) :
    decls.Proper inner :=
  h.of_contains (contains_of_typeAlong? hinner)

theorem tracked_of_typeAlong? (hinner : decls.typeAlong? ty names = some inner)
    (htracked : decls.tracked inner = .ok true) {b : Bool} (hty : decls.tracked ty = .ok b) :
    b = true := by
  obtain ⟨reference, hreach, hreference⟩ := (tracked_iff htracked).1 rfl
  exact (tracked_iff hty).2
    ⟨reference, (contains_of_typeAlong? hinner).trans hreach, hreference⟩

theorem typeAlong?_of_mem_fields (h : decls.Distinct ty) (hfields : decls.fields ty = .ok fields)
    (hfield : field ∈ fields) : decls.typeAlong? ty field.path.segments = some field.ty ∧
      decls.tracked field.ty = .ok field.tracked := by
  obtain ⟨members, hmembers, hall⟩ := fields_eq hfields
  obtain ⟨⟨path, memberTy⟩, hmember, hpath, hty, htracked⟩ :=
    forall₂_mem_right hall hfield
  refine ⟨?_, htracked⟩
  rw [hpath, hty]
  exact typeAlong?_of_mem_members h hmembers hmember

/-- The type along the name of a member and further. -/
theorem typeAlong?_single_append {name : String}
    (h : decls.memberType? ty name = .ok (some inner)) :
    decls.typeAlong? ty (Path.single name ++ m).segments = decls.typeAlong? inner m.segments := by
  change decls.typeAlong? ty (name :: m.segments) = _
  rw [typeAlong?, h]

end Declarations

/-- The types of all nodes and parameters have layouts, struct literals fit to them, and no variable
has the name of a block. -/
structure Owner.Neat (decls : Declarations) (owner : Owner) (function : Function) : Prop where
  nodes : Flow.WellTyped decls owner.nodes
  parameters : ∀ parameter ∈ function.parameters, decls.Proper parameter.ty
  names : Unblurred function.parameters owner.nodes

/-- No name of a variable begins as those of blocks do. -/
def Owner.NamesPlainly (owner : Owner) (function : Function) : Prop :=
  (∀ parameter ∈ function.parameters, ∀ name,
    parameter.path.segments.getLast? = some name → name.toList.head? ≠ some '$') ∧
  ∀ id node, owner.nodes.get? id = some node →
  ∀ x value, node.expr = .declaration x value → ∀ name,
    x.segments.getLast? = some name → name.toList.head? ≠ some '$'

/-- The body is laid out, and no name begins as those of blocks do. -/
def Owner.LooksNeat (decls : Declarations) (rank : Path → Nat) (owner : Owner)
    (function : Function) : Prop :=
  owner.LaysOut decls rank function ∧ owner.NamesPlainly function

section LooksNeat

variable {decls : Declarations} {rank : Path → Nat} {function : Function}

instance : Decidable (owner.NamesPlainly function) := by
  delta Owner.NamesPlainly
  infer_instance

theorem Owner.NamesPlainly.unblurred (h : owner.NamesPlainly function) :
    Unblurred function.parameters owner.nodes := by
  intro x site ty hbinds n hlast
  cases hbinds with
  | parameter hmem => exact ne_blockName (h.1 _ hmem _ hlast) n rfl
  | declaration hnode hexpr _ => exact ne_blockName (h.2 _ _ hnode _ _ hexpr _ hlast) n rfl

instance : Decidable (owner.LooksNeat decls rank function) := by
  delta Owner.LooksNeat
  infer_instance

theorem Owner.LooksNeat.neat (h : owner.LooksNeat decls rank function) :
    owner.Neat decls function := by
  obtain ⟨hlays, hnames⟩ := h
  have hlaid := hlays.laidOut
  exact ⟨hlaid.nodes.toWellTyped, hlaid.parameters, hnames.unblurred⟩

end LooksNeat

namespace Flow

/-- The types of all nodes and parameters are as they should be, and variables do not overlap. -/
structure WellBuilt (env : Env) (function : Function) : Prop where
  typed : TypedNodes env.declarations env.owner.nodes
  wellTyped : WellTyped env.declarations env.owner.nodes
  parameters : ∀ parameter ∈ function.parameters, env.declarations.Proper parameter.ty
  sited : env.owner.Sited function

theorem wellBuilt_ofFunction {items : List Item} {assembly : Program.Assembly} {function : Function}
    (h : Program.ofItems items = .ok assembly) (howner : owner ∈ assembly.program.owners)
    (hkind : owner.kind = .function function) (hneat : owner.Neat assembly.declarations function)
    (options : Options) :
    WellBuilt (.ofFunction assembly.declarations options owner function) function where
  typed := Program.typed_ofItems h howner hkind
  wellTyped := hneat.nodes
  parameters := hneat.parameters
  sited := Program.sited_ofItems h howner hkind hneat.names

/-- The path is that of a variable, or of a member of one, and has the type. -/
def Denotes (env : Env) (function : Function) (path : Path) (ty : Ty) : Prop :=
  ∃ x site whole m, Binds function.parameters env.owner.nodes x site whole ∧ path = x ++ m ∧
    env.declarations.typeAlong? whole m.segments = some ty

/-- The storage at the path has room for a value of the type. -/
def Houses (env : Env) (function : Function) (path : Path) (ty : Ty) : Prop :=
  ∃ whole names, Denotes env function path whole ∧
    env.declarations.typeAlong? whole names = some ty

/-- Data that is a slot refers to storage of its type, and the slot that it sits in has room for
it. -/
structure Suits (env : Env) (function : Function) (extent : Extent) (ty : Ty) : Prop where
  value : extent.value.isSlot = true → ∃ inner, ty = .pointer inner ∧
    Houses env function extent.value.path inner
  slot : extent.slot.isSlot = true → Houses env function extent.slot.path ty

variable {env : Env} {function : Function} {path : Path} {ty inner : Ty}

namespace WellBuilt

variable (hbuilt : WellBuilt env function)
include hbuilt

theorem proper_of_binds (h : Binds function.parameters env.owner.nodes x site ty) :
    env.declarations.Proper ty := by
  cases h with
  | parameter hparameter => exact hbuilt.parameters _ hparameter
  | declaration _ _ hvalue => exact hbuilt.wellTyped.proper _ _ hvalue

theorem proper_of_denotes (h : Denotes env function path ty) : env.declarations.Proper ty := by
  obtain ⟨x, site, whole, m, hbinds, -, halong⟩ := h
  exact (hbuilt.proper_of_binds hbinds).typeAlong? halong

theorem denotes_unique (h : Denotes env function path ty) (h' : Denotes env function path inner) :
    ty = inner := by
  obtain ⟨x, site, whole, m, hbinds, rfl, halong⟩ := h
  obtain ⟨y, site', whole', n, hbinds', heq, halong'⟩ := h'
  obtain ⟨rfl, -, rfl⟩ := hbuilt.sited.apart hbinds hbinds' heq
  rw [Path.append_right_inj.1 heq, halong'] at halong
  exact (Option.some.inj halong).symm

end WellBuilt

/-- The variable that a node names has the type of the node. -/
theorem binds_of_var (hsited : env.owner.Sited function) {id : NodeId} {node : Node}
    (hnode : env.node id = .ok node) (hexpr : node.expr = .var x) :
    ∃ site, Binds function.parameters env.owner.nodes x site node.ty := by
  have hsited := hsited.nodes id node (env_node_eq_ok_iff.1 hnode)
  rw [hexpr] at hsited
  exact hsited

theorem Denotes.append (h : Denotes env function path ty)
    (halong : env.declarations.typeAlong? ty m.segments = some inner) :
    Denotes env function (path ++ m) inner := by
  obtain ⟨x, site, whole, n, hbinds, rfl, hwhole⟩ := h
  refine ⟨x, site, whole, n ++ m, hbinds, Path.append_assoc _ _ _, ?_⟩
  rw [Path.segments_append, Declarations.typeAlong?_append, hwhole]
  exact halong

theorem Denotes.of_binds (h : Binds function.parameters env.owner.nodes x site ty) :
    Denotes env function x ty :=
  ⟨x, site, ty, .whole, h, (Path.append_whole x).symm, rfl⟩

theorem Denotes.houses (h : Denotes env function path ty) : Houses env function path ty :=
  ⟨ty, [], h, rfl⟩

theorem Houses.append (h : Houses env function path ty) {names : List String}
    (halong : env.declarations.typeAlong? ty names = some inner) :
    Houses env function path inner := by
  obtain ⟨whole, outer, hdenotes, houter⟩ := h
  refine ⟨whole, outer ++ names, hdenotes, ?_⟩
  rw [Declarations.typeAlong?_append, houter]
  exact halong

/-- Storage with room for references is of a type that carries references. -/
theorem Houses.tracked (h : Houses env function path ty) (hbuilt : WellBuilt env function)
    (htracked : env.declarations.tracked ty = .ok true) :
    ∃ whole, Denotes env function path whole ∧ env.declarations.tracked whole = .ok true := by
  obtain ⟨whole, names, hdenotes, halong⟩ := h
  obtain ⟨b, hb⟩ := (hbuilt.proper_of_denotes hdenotes).exists_tracked
  exact ⟨whole, hdenotes, Declarations.tracked_of_typeAlong? halong htracked hb ▸ hb⟩

theorem suits_of_isSlot_eq_false (hvalue : extent.value.isSlot = false)
    (hslot : extent.slot.isSlot = false) : Suits env function extent ty where
  value := by simp [hvalue]
  slot := by simp [hslot]

/-- The data that a binding has: some exactly if the type at the path carries references. -/
def Furnished (env : Env) (function : Function) (path : Path) (extent : Extent) : Prop :=
  ∃ ty b, Denotes env function path ty ∧ env.declarations.tracked ty = .ok b ∧
    (extent.value.isNone = false ↔ b = true)

/-- The analysis of a function, with `base` versions before it, keeps to types. -/
structure TypedState (env : Env) (function : Function) (base : Nat) (s : State) : Prop where
  start : base ≤ s.context.rebound.length
  bindings : s.frame.All (Furnished env function)
  versions : ∀ entry ∈ s.context.rebound.drop base, ∃ ty, Denotes env function entry.1 ty ∧
    env.declarations.tracked ty = .ok true
  results : s.Results fun id m extent => ∀ node ty, env.node id = .ok node →
    env.declarations.typeAlong? node.ty m.segments = some ty → Suits env function extent ty

theorem pointee?_eq_none (h : env.options.resolveAliases = false) (s : State) (pointer : Extent) :
    pointee? env s pointer = none := by
  simp [pointee?, h, failure]

variable {X : Setting} {p p' : Progress X} {s s' : State} {base : Nat}

namespace TypedState

theorem of_frame_eq (h : TypedState env function base s)
    (hrebound : s'.context.rebound = s.context.rebound) (hframe : s'.frame = s.frame)
    (hflow : ∀ id, s'.flowAt id = s.flowAt id) : TypedState env function base s' where
  start := hrebound ▸ h.start
  bindings := hframe ▸ h.bindings
  versions := hrebound ▸ h.versions
  results := h.results.of_flowAt_eq hflow

theorem declare (h : TypedState env function base s)
    (hrebound : s'.context.rebound = s.context.rebound)
    (hframe : s'.frame = s.frame.declare path extent) (hflow : ∀ id, s'.flowAt id = s.flowAt id)
    (hextent : Furnished env function path extent) : TypedState env function base s' where
  start := hrebound ▸ h.start
  bindings := hframe ▸ h.bindings.declare hextent
  versions := hrebound ▸ h.versions
  results := h.results.of_flowAt_eq hflow

/-- A path of a type that carries references gets a new version. -/
theorem adopted (h : TypedState env function base s) {slot : Lifetime} {graph : Outlives}
    {frame : Frame} (hframe : s.frame.rebind path ⟨s.nextVersionOf path, slot⟩ = .ok frame)
    (hdenotes : Denotes env function path ty) (htracked : env.declarations.tracked ty = .ok true) :
    TypedState env function base (s.adopted path graph frame) where
  start := Nat.le_trans h.start (by simp [State.adopted])
  bindings := h.bindings.rebind ⟨ty, true, hdenotes, htracked, by simp [State.nextVersionOf,
    Lifetime.isNone]⟩ hframe
  versions := by
    intro entry hentry
    change entry ∈ (s.context.rebound ++ [(path, s.nextVersionOf path)]).drop base at hentry
    rw [List.drop_append_of_le_length h.start] at hentry
    rcases List.mem_append.1 hentry with hold | hnew
    · exact h.versions entry hold
    · cases List.mem_singleton.1 hnew
      exact ⟨ty, hdenotes, htracked⟩
  results := h.results

theorem enter (h : TypedState env function base s) {inner : Frame → Frame}
    (hinner : inner = Frame.child ∨ inner = Frame.loopBody) :
    TypedState env function base { s with frame := inner s.frame } :=
  ⟨h.start, h.bindings.enter hinner, h.versions, h.results⟩

theorem absorb {inner : State} {frame : Frame} (houter : TypedState env function base s)
    (h : TypedState env function base inner) (hframe : s.frame.Absorbs inner.frame frame) :
    TypedState env function base { inner with frame } :=
  ⟨h.start, houter.bindings.absorb h.bindings hframe, h.versions, h.results⟩

end TypedState

/-- A field of a variable has the data that its type calls for. -/
theorem furnished_field (hbuilt : WellBuilt env function)
    (hbinds : Binds function.parameters env.owner.nodes x site ty) {fields : List Field}
    (hfields : env.fields ty = .ok fields) {field : Field} (hfield : field ∈ fields)
    (hextent : extent.value.isNone = false ↔ field.tracked = true) :
    Furnished env function (x ++ field.path) extent := by
  obtain ⟨halong, htracked⟩ :=
    Declarations.typeAlong?_of_mem_fields (hbuilt.proper_of_binds hbinds).layered.distinct
      hfields hfield
  exact ⟨field.ty, field.tracked, (Denotes.of_binds hbinds).append halong, htracked, hextent⟩

theorem NextField.mem {fields : List Field} {done : List Path} {field : Field}
    (h : NextField fields done field) : field ∈ fields := by
  obtain ⟨before, after, rfl, -⟩ := h
  simp

/-- The declared variable is bound at the node at work. -/
theorem Declaring.furnished {task : Task X} {field : Field} {initial? : Option Extent}
    (hbuilt : WellBuilt X.env function) (h : Declaring s task path field initial?)
    (hextent : extent.value.isNone = false ↔ field.tracked = true) :
    Furnished X.env function (path ++ field.path) extent := by
  obtain ⟨value, flow, ty, fields, hexpr, -, hty, hfields, hnext, -⟩ := h.operands
  obtain ⟨valueNode, hvalue, hty⟩ := except_bind_eq_ok hty
  cases hty
  exact furnished_field hbuilt (.declaration (env_node_eq_ok_iff.1 task.found) hexpr
    (env_node_eq_ok_iff.1 hvalue)) hfields hnext.mem hextent

/-- Where a field with references is assigned to, the storage has room for it. -/
theorem Assigning.houses {task : Task X} {field : Field} {place new : Extent}
    (hbuilt : WellBuilt X.env function) (hs : TypedState X.env function base s)
    (h : Assigning s task field place new) (hslot : place.slot.isSlot = true) :
    Houses X.env function place.slot.path field.ty ∧
      X.env.declarations.tracked field.ty = .ok field.tracked := by
  obtain ⟨target, value, places, assigned, ty, fields, -, htarget, -, hty, hfields,
      hnext, hplace, -⟩ :=
    h.operands
  obtain ⟨node, hnode, hty⟩ := except_bind_eq_ok hty
  cases hty
  have hproper := hbuilt.wellTyped.proper target node (env_node_eq_ok_iff.1 hnode)
  obtain ⟨halong, htracked⟩ :=
    Declarations.typeAlong?_of_mem_fields hproper.layered.distinct hfields hnext.mem
  exact
    ⟨(hs.results target places htarget field.path place hplace node field.ty hnode halong).slot
    hslot, htracked⟩

/-- What the rule of a node records suits the types of its members. -/
theorem Result.suits (hbuilt : WellBuilt env function) (hoff : env.options.resolveAliases = false)
    (hcoherent : Coherent s) (hs : TypedState env function base s) {id : NodeId} {node : Node}
    (hnode : env.node id = .ok node) {position : Position} {bundle : Bundle}
    (hresult : Result env s id node.ty position node.expr bundle) (hm : bundle[m]? = some extent)
    (halong : env.declarations.typeAlong? node.ty m.segments = some ty) :
    Suits env function extent ty := by
  have htyped := hbuilt.typed id node (env_node_eq_ok_iff.1 hnode)
  have hvariable : ∀ {x : Path}, node.expr = .var x → s.frame.lookup? (x ++ m) = some extent →
      Suits env function extent ty := by
    intro x hexpr hlookup
    have hanchored := hcoherent.bindings.lookup hlookup
    obtain ⟨site, hbinds⟩ := binds_of_var hbuilt.sited hnode hexpr
    refine ⟨by simp [hanchored.isSlot_value], fun _ => ?_⟩
    rw [hanchored.slot]
    exact ((Denotes.of_binds hbinds).append halong).houses
  have hresults : ∀ {child : NodeId} {flow : NodeFlow} {n : Path} {found : Extent}
    {childNode : Node}, s.flowAt child = some flow → flow.bundle[n]? = some found →
      env.owner.nodes.get? child = some childNode →
      env.declarations.typeAlong? childNode.ty n.segments = some ty →
      Suits env function found ty :=
    fun hflow hfound hchild => hs.results _ _ hflow _ _ hfound _ _ (env_node_eq_ok_iff.2 hchild)
  generalize hexpr : node.expr = expr at hresult htyped
  cases hresult.sourced hm with
  | untracked | fetched | allocated | shared | called | joined =>
      exact suits_of_isSlot_eq_false rfl rfl
  | read hfields hfield htracked hlookup => exact hvariable hexpr hlookup
  | named hmembers hmember hlookup => exact hvariable hexpr hlookup
  | resolved hpointer hhome =>
    rw [pointee?_eq_none hoff] at hhome
    cases hhome
  | @behind _ kind pointer fields field hpointer hfields hfield =>
    refine ⟨fun hslot => ?_, fun hslot => ?_⟩
    · unfold Env.behind at hslot
      dsimp only at hslot
      split at hslot <;> cases hslot
    · cases hpointer with
      | @dereference target flow pointer hflow hwhole =>
        obtain ⟨targetNode, htarget, hty⟩ := htyped
        have hsuits := hs.results target flow hflow _ _ hwhole targetNode targetNode.ty
          (env_node_eq_ok_iff.2 htarget) rfl
        obtain ⟨inner, hinner, hhouses⟩ := hsuits.value hslot
        cases hty.symm.trans hinner
        exact hhouses.append halong
      | @index target subscript flow pointer hflow hwhole =>
        obtain ⟨targetNode, htarget, hty⟩ := htyped
        have hsuits := hs.results target flow hflow _ _ hwhole targetNode targetNode.ty
          (env_node_eq_ok_iff.2 htarget) rfl
        obtain ⟨inner, hinner, -⟩ := hsuits.value hslot
        cases hty.symm.trans hinner
  | member hflow hextent =>
    obtain ⟨targetNode, htarget, hmember⟩ := htyped
    exact hresults hflow hextent htarget
      ((Declarations.typeAlong?_single_append hmember).trans halong)
  | address hflow hwhole =>
    obtain ⟨targetNode, htarget, hty⟩ := htyped
    have hsuits :=
      hs.results _ _ hflow _ _ hwhole targetNode targetNode.ty (env_node_eq_ok_iff.2 htarget) rfl
    cases halong
    exact ⟨fun hslot => ⟨targetNode.ty, hty, hsuits.slot hslot⟩,
      fun hslot => by cases hslot⟩
  | inserted htracked hfield hflow hextent =>
    obtain ⟨value, hvalue, hmember⟩ :=
      hbuilt.wellTyped.literals id node _ (env_node_eq_ok_iff.1 hnode) hexpr _ hfield
    have hsuits := hresults hflow hextent hvalue
      ((Declarations.typeAlong?_single_append hmember).symm.trans halong)
    exact ⟨hsuits.value, fun hslot => by cases hslot⟩
  | result hvoid hlast hflow hextent =>
    have hblock : BlockType env.owner.nodes _ node.ty := htyped
    rw [BlockType, hlast] at hblock
    obtain ⟨lastNode, hlastNode, hty⟩ := hblock
    exact hresults hflow hextent hlastNode (hty ▸ halong)

section

variable (hbuilt : WellBuilt X.env function) (hoff : X.env.options.resolveAliases = false)
  (hparameters : ∀ parameter ∈ X.parameters, parameter ∈ function.parameters)

include hbuilt hoff hparameters

theorem Step.typedState (h : Step X p s p' s') (hcoherent : Coherent s)
    (hs : TypedState X.env function base s) : TypedState X.env function base s' := by
  cases h with
  | begin | skip => exact hs
  | note | region | expose | store | through | hidden | returned =>
    exact hs.of_frame_eq rfl rfl fun _ => rfl
  | declared hdeclaring htracked =>
    refine hs.declare rfl rfl (fun _ => rfl) (hdeclaring.furnished hbuilt ?_)
    simp [htracked, Lifetime.first, Lifetime.isNone]
  | plain hdeclaring huntracked =>
    refine hs.declare rfl rfl (fun _ => rfl) (hdeclaring.furnished hbuilt ?_)
    simp [huntracked, Lifetime.none, Lifetime.isNone]
  | rebound hassigning hslot htracked hframe =>
    obtain ⟨hhouses, hty⟩ := hassigning.houses hbuilt hs hslot
    obtain ⟨whole, hdenotes, hwhole⟩ := hhouses.tracked hbuilt (htracked ▸ hty)
    exact hs.adopted hframe hdenotes hwhole
  | @record task joins _ _ bundle escaping hresult hrun =>
    refine ⟨hs.start, hs.bindings, hs.versions,
      hs.results.record hrun fun m extent hm node ty hnode halong => ?_⟩
    cases task.found.symm.trans hnode
    exact hresult.suits hbuilt hoff hcoherent hs task.found hm halong
  | parameter hparameter hfields hfield hrun =>
    have hbinds : Binds function.parameters X.env.owner.nodes _ none _ :=
      .parameter (hparameters _ hparameter)
    obtain ⟨htracked, rfl⟩ | ⟨huntracked, rfl⟩ := runs_declareParameterMember hrun
    · refine hs.declare rfl rfl (fun _ => rfl) (furnished_field hbuilt hbinds hfields hfield ?_)
      simp [htracked, Lifetime.root, Lifetime.isNone]
    · refine hs.declare rfl rfl (fun _ => rfl) (furnished_field hbuilt hbinds hfields hfield ?_)
      simp [huntracked, Lifetime.none, Lifetime.isNone]
  | entered hvisited hnode hexpr heffects hlookup hsome hchange hframe =>
    obtain ⟨ty, b, hdenotes, hb, hiff⟩ := hs.bindings.lookup hlookup
    exact hs.adopted hframe hdenotes (hiff.1 hsome ▸ hb)

theorem lasts_typedState (base : Nat) :
    Lasts X (fun _ s => Coherent s) fun _ s => TypedState X.env function base s where
  step hstep hcoherent hs := hstep.typedState hbuilt hoff hparameters hcoherent hs
  enter _ henter hs := hs.enter henter
  leave _ _ _ hframe hs hs' := hs.absorb hs' hframe
  join := by
    intro p₀ p s₀ s path positive negative before frame _ hjoining _ hs₀ hs
    -- A branch has changed the path, so that it had a version before.
    obtain ⟨version, hlogged⟩ := hjoining.exists_logged
    obtain ⟨ty, hdenotes, htracked⟩ :=
      hs.versions _ ((List.drop_sublist_drop_left _ hs₀.start).subset hlogged)
    exact hs.adopted hjoining.rebind hdenotes htracked
  flowBack _ _ _ _ _ _ _ hs := hs.of_frame_eq rfl rfl fun _ => rfl

theorem Inside.typedState (h : Inside X p s p' s') (hcoherent : Coherent s)
    (hs : TypedState X.env function base s) : TypedState X.env function base s' :=
  ((lasts_coherent.and (lasts_typedState hbuilt hoff hparameters base)).inside h
    ⟨hcoherent, hs⟩).2

end

theorem typedState_start (context : Context) (size : Nat) :
    TypedState env function context.rebound.length (.start context size) where
  start := Nat.le_refl _
  bindings := frame_all_start context size _
  versions := by simp [State.start]
  results := .start context size

end Flow
end Regions
