import Regions.Proofs.Aggregates
import Regions.Proofs.Assignments
import Regions.Proofs.Frames

/-!
# Transitions of the analysis

The analysis of a function goes from state to state. This file says what a single transition can be,
and under which circumstances it happens; a fact about all states that the analysis comes by is one
that every kind of transition keeps.

A transition knows a little more than the state does: the node whose own part of the rule is
running, with the fields that are done, and the versions that were made where executions meet.

* `Expr.uses`: the operands that a rule has analysed, in their positions;
* `Task`, `Progress`: the node at work, and the versions of joins;
* `Stores`, `Exposes`, `Result`: why data is stored, a path is exposed, and what is recorded;
* `Step`: one transition;
* `Steps`: transitions that leave every scope which they enter;
* `Inside`: states that are come by, inside of scopes or not;
* `Lasts`: a property that every kind of transition keeps, and so has every state that is come by.
-/

namespace Regions

open Std

variable {extent : Extent} {slot : Lifetime} {enter : Frame → Frame}

/-- The operands that the rule of an expression has analysed, each with its position. -/
def Expr.uses : Flow.Position → Expr → List (Flow.Position × NodeId)
  | position, .memberAccess target _ => [(position, target)]
  | _, .dereference target => [(.value, target)]
  | _, .index target subscript => [(.value, target), (.value, subscript)]
  | .place, _ => []
  | .value, .addressOf target => [(.place, target)]
  | .value, .assignment target value => [(.place, target), (.value, value)]
  | .value, expr => expr.children.map fun child => (.value, child)

theorem Expr.mem_children_of_mem_uses {position : Flow.Position} {expr : Expr}
    {operand : Flow.Position × NodeId} (h : operand ∈ expr.uses position) :
    operand.2 ∈ expr.children := by
  cases position <;> cases expr <;>
    simp only [Expr.uses, List.mem_map, List.mem_cons, List.not_mem_nil, or_false] at h <;>
    first
      | (obtain ⟨child, hchild, rfl⟩ := h; exact hchild)
      | (rcases h with rfl | rfl <;> simp [Expr.children])

/-- The first version of the data behind a variable. -/
def Lifetime.first (path : Path) : Lifetime := { path, role := .alias, origin := .localValue }

/-- The frame is `outer`, with some of the changes that `inner` has made to outer variables. -/
structure Frame.Absorbs (outer inner frame : Frame) : Prop where
  enclosing : frame.enclosing = outer.enclosing
  inLoop : frame.inLoop = outer.inLoop
  declared : frame.innermost.declared = outer.innermost.declared
  bindings : ∀ path : Path, frame.innermost.bindings[path]? = outer.innermost.bindings[path]? ∨
    ∃ extent, inner.rebindings[path]? = some extent ∧
      frame.innermost.bindings[path]? = some extent

theorem Frame.Absorbs.refl (outer inner : Frame) : outer.Absorbs inner outer :=
  ⟨rfl, rfl, rfl, fun _ => .inl rfl⟩

theorem Frame.Absorbs.rebind {outer inner frame after : Frame} (h : outer.Absorbs inner frame)
    {path : Path} (hextent : inner.rebindings[path]? = some extent)
    (hrebind : frame.rebind path extent = .ok after) : outer.Absorbs inner after := by
  unfold Frame.rebind at hrebind
  split at hrebind
  · cases hrebind
    refine ⟨h.enclosing, h.inLoop, h.declared, fun other => ?_⟩
    by_cases hother : other = path
    · subst hother
      exact .inr ⟨extent, hextent, by simp⟩
    · have hne : compare path other ≠ .eq :=
        fun hcmp => hother (Std.compare_eq_iff_eq.1 hcmp).symm
      simp only [ExtTreeMap.getElem?_insert, if_neg hne]
      exact h.bindings other
  · cases hrebind

/-- What is visible in the frame is visible in the other one. -/
abbrev Frame.VisibleIn (frame other : Frame) : Prop :=
  ∀ path, (∃ extent, frame.lookup? path = some extent) →
    ∃ extent, other.lookup? path = some extent

namespace Flow

/-- A function that is analysed, and the nodes that this comes to, each in its position. -/
structure Setting where
  env : Env
  parameters : List Parameter
  visits : Position → NodeId → Prop

/-- Operands are analysed with the nodes that they belong to. -/
def Setting.Closed (X : Setting) : Prop :=
  ∀ position id node, X.visits position id → X.env.node id = .ok node →
    ∀ operand ∈ node.expr.uses position, X.visits operand.1 operand.2

/-- The analysis comes to a node in one position only. -/
abbrev Setting.Unique (X : Setting) : Prop :=
  ∀ id position position', X.visits position id → X.visits position' id → position = position'

/-- No node that the analysis comes to is among its own operands: the operands have smaller
ranks. -/
def Setting.Acyclic (X : Setting) : Prop :=
  ∃ (S : NodeId → Prop) (rank : NodeId → Nat),
    (∀ position id, X.visits position id → S id) ∧
    ∀ id node, S id → X.env.node id = .ok node → ∀ child ∈ node.expr.children,
      S child ∧ rank child < rank id

/-- A node whose own part of the rule is running, with the fields that are done. -/
structure Task (X : Setting) where
  position : Position
  id : NodeId
  node : Node
  done : List Path
  /-- What was known when the own part began. -/
  since : Context
  visited : X.visits position id
  found : X.env.node id = .ok node

/-- One more field is done. -/
def Task.did {X : Setting} (task : Task X) (path : Path) : Task X :=
  { task with done := task.done ++ [path] }

/-- What transitions know besides the state. -/
structure Progress (X : Setting) where
  /-- The node at work, if any. -/
  task : Option (Task X)
  /-- The versions that were made where executions meet. -/
  joins : List Lifetime

variable {X : Setting}

/-! ## Circumstances -/

/-- The reference that an access goes through, and the name of its intermediate values. -/
inductive Pointer (s : State) : Expr → String → Extent → Prop
  | dereference {target : NodeId} {flow : NodeFlow} {pointer : Extent}
      (hflow : s.flowAt target = some flow) (hwhole : flow.bundle.whole? = some pointer) :
      Pointer s (.dereference target) "deref" pointer
  | index {target subscript : NodeId} {flow : NodeFlow} {pointer : Extent}
      (hflow : s.flowAt target = some flow) (hwhole : flow.bundle.whole? = some pointer) :
      Pointer s (.index target subscript) "index" (.ofValue pointer.value)

theorem Pointer.ne_new {s : State} {expr : Expr} {kind : String} {pointer : Extent}
    (h : Pointer s expr kind pointer) (value : NodeId) : expr ≠ .new (some value) := by
  rintro rfl
  cases h

/-- The field comes after those that are done. -/
def NextField (fields : List Field) (done : List Path) (field : Field) : Prop :=
  ∃ before after, fields = before ++ field :: after ∧ done = before.map Field.path

/-- The node at work is an assignment, and this is its next field. -/
structure Assigning (s : State) (task : Task X) (field : Field) (place new : Extent) : Prop where
  position : task.position = .value
  operands : ∃ target value places assigned ty fields,
    task.node.expr = .assignment target value ∧
    s.flowAt target = some places ∧ s.flowAt value = some assigned ∧
    X.env.typeOf target = .ok ty ∧
    X.env.fields ty = .ok fields ∧ NextField fields task.done field ∧
    places.bundle[field.path]? = some place ∧ assigned.bundle[field.path]? = some new

/-- The node at work declares the variable at `path`, and this is its next field. -/
structure Declaring (s : State) (task : Task X) (path : Path) (field : Field)
    (initial? : Option Extent) : Prop where
  position : task.position = .value
  operands : ∃ value flow ty fields, task.node.expr = .declaration path value ∧
    s.flowAt value = some flow ∧ X.env.typeOf value = .ok ty ∧ X.env.fields ty = .ok fields ∧
    NextField fields task.done field ∧ initial? = flow.bundle[field.path]?

/-- The lifetime of a member of the joined value of two branches. -/
def Env.joinedAt (env : Env) (id : NodeId) (field : Field) : Lifetime :=
  { path := env.tempPath "if" id ++ field.path, role := .temp, origin := .temporary }

/-- The lifetime that a struct literal holds its data with. -/
def Env.literalAt (env : Env) (id : NodeId) : Lifetime :=
  { path := env.tempPath "struct" id, role := .temp, origin := .temporary }

/-- The region that is read through a reference. -/
def Env.readAt (env : Env) (kind : String) (id : NodeId) (field : Field) : Lifetime :=
  .root (env.tempPath kind id ++ field.path) .temporary

/-- The writes to the heap that were logged since there were `logged` of them are of data that rests
on no other storage. -/
def Harmless (env : Env) (logged : Nat) (s : State) : Prop :=
  env.options.checkHeapStores = true → ∀ write ∈ s.context.heapWrites.drop logged,
    write.container.isHeap = true → ∀ root, root ∉ s.context.graph.rootsOf write.stored

/-- The data is that of a field of the operand. -/
def Yields (env : Env) (s : State) (operand : NodeId) (x : Lifetime) : Prop :=
  ∃ flow ty fields field extent, s.flowAt operand = some flow ∧ env.typeOf operand = .ok ty ∧
    env.fields ty = .ok fields ∧ field ∈ fields ∧ flow.bundle[field.path]? = some extent ∧
    extent.value = x ∧ x.isNone = false

/-- The memory that a node allocates has got the data of the operand, and the writes are among those
that were logged since there were `logged` of them. -/
def Fills (env : Env) (logged : Nat) (s : State) (id operand : NodeId) : Prop :=
  s.flowAt operand ≠ none ∧ ∀ x, Yields env s operand x →
    (∃ write ∈ s.context.heapWrites.drop logged,
      write.container = env.allocation id ∧ write.stored = x) ∧
    (x ≠ env.allocation id → s.context.graph.Holds (env.allocation id) x)

/-- The data of the operand may be in the heap. -/
def Cleared (env : Env) (s : State) (operand : NodeId) : Prop :=
  env.options.checkHeapStores = true → ∀ x, Yields env s operand x →
    ∀ root, root ∉ s.context.graph.rootsOf x

/-- Why the node at work stores data in a container. -/
inductive Stores (s : State) (task : Task X) : Lifetime → Lifetime → Prop
  | read {kind : String} {pointer : Extent} {fields : List Field} {field : Field}
      (hposition : task.position = .value) (hpointer : Pointer s task.node.expr kind pointer)
      (hfields : X.env.fields task.node.ty = .ok fields) (hfield : field ∈ fields)
      (htracked : field.tracked = true)
      (hregion : X.env.readAt kind task.id field ∈ s.context.roots) :
      Stores s task pointer.value (X.env.readAt kind task.id field)
  | written {kind : String} {pointer : Extent} {fields : List Field} {field : Field}
      {holder : Lifetime} (hposition : task.position = .place)
      (hpointer : Pointer s task.node.expr kind pointer)
      (hfields : X.env.fields task.node.ty = .ok fields) (hfield : field ∈ fields)
      (htracked : field.tracked = true) (hholder : task.since.graph.Reaches pointer.value holder) :
      Stores s task holder (X.env.writtenAt kind task.id field)
  | inserted {fields : List (String × NodeId)} {field : String × NodeId} {flow : NodeFlow}
      {data : Lifetime} (hposition : task.position = .value)
      (hexpr : task.node.expr = .structLiteral fields) (hfield : field ∈ fields)
      (hflow : s.flowAt field.2 = some flow) (hdata : data ∈ flow.bundle.tracked)
      (htracked : X.env.tracked task.node.ty = .ok true) :
      Stores s task (X.env.literalAt task.id) data
  | initialized {value : NodeId} {flow : NodeFlow} {ty : Ty} {fields : List Field} {field : Field}
      {extent : Extent} (hposition : task.position = .value)
      (hexpr : task.node.expr = .new (some value)) (hflow : s.flowAt value = some flow)
      (hextent : flow.bundle[field.path]? = some extent)
      (hregion : X.env.allocation task.id ∈ s.context.roots) (hty : X.env.typeOf value = .ok ty)
      (hfields : X.env.fields ty = .ok fields) (hfield : field ∈ fields) :
      Stores s task (X.env.allocation task.id) extent.value
  | joined {condition positive negative branch : NodeId} {flow : NodeFlow} {fields : List Field}
      {field : Field} {extent : Extent} (hposition : task.position = .value)
      (hexpr : task.node.expr = .cond condition positive (some negative))
      (hbranch : branch = positive ∨ branch = negative) (hflow : s.flowAt branch = some flow)
      (hextent : flow.bundle[field.path]? = some extent) (hvoid : task.node.ty.isVoid = false)
      (hfields : X.env.fields task.node.ty = .ok fields) (hfield : field ∈ fields)
      (htracked : field.tracked = true) : Stores s task (X.env.joinedAt task.id field) extent.value
  | mixed {function : Path} {arguments : List NodeId} {i j : Nat} {stored container : NodeId}
      {storedFlow containerFlow : NodeFlow} {ty : Ty} {value holder : Lifetime}
      (hposition : task.position = .value)
      (hexpr : task.node.expr = .call function arguments) (hne : i ≠ j)
      (hstored : arguments[i]? = some stored) (hcontainer : arguments[j]? = some container)
      (hstoredFlow : s.flowAt stored = some storedFlow)
      (hcontainerFlow : s.flowAt container = some containerFlow)
      (hty : X.env.typeOf container = .ok ty) (htracked : X.env.tracked ty = .ok true)
      (hvalue : value ∈ storedFlow.bundle.tracked)
      (hholder : holder ∈ containerFlow.bundle.tracked)
      (hstoredTy : ∃ storedTy b, X.env.typeOf stored = .ok storedTy ∧
      X.env.tracked storedTy = .ok b) : Stores s task holder value

/-- Why a path is exposed. -/
inductive Exposes (X : Setting) (s : State) : Option (Task X) → Path → Prop
  | address {task : Task X} {target : NodeId} {flow : NodeFlow} {extent : Extent}
      (hposition : task.position = .value) (hexpr : task.node.expr = .addressOf target)
      (hflow : s.flowAt target = some flow)
      (hwhole : flow.bundle.whole? = some extent) (hslot : extent.slot.isSlot = true) :
      Exposes X s (some task) extent.slot.path
  | loop {id condition body : NodeId} {node : Node} {effects : LoopEffects} {path : Path}
      (hvisited : X.visits .value id) (hnode : X.env.node id = .ok node)
      (hexpr : node.expr = .loop condition body)
      (heffects : loopEffects X.env.owner condition body = .ok effects)
      (hpath : path ∈ effects.addressTaken) : Exposes X s none path

/-- The entries of a bundle, one for each field. -/
def Lists {α : Type} (fields : List α) (P : α → Path × Extent → Prop) (bundle : Bundle) :
    Prop :=
  ∃ entries, List.Forall₂ P fields entries ∧ bundle = .ofList entries compare

/-- The extents that an access records. -/
inductive Accessed (env : Env) (s : State) (id : NodeId) (kind : String) (pointer : Extent)
    (fields : List Field) : Position → Bundle → Prop
  | resolved {position : Position} {home : Lifetime} {access : Access} {bundle : Bundle}
      (haccess : access = .read ↔ position = .value) (hhome : pointee? env s pointer = some home)
      (hbundle : aliasBundle? s.frame home.path access fields = some bundle) :
      Accessed env s id kind pointer fields position bundle
  | read (hregions : ∀ field ∈ fields, field.tracked = true →
      env.readAt kind id field ∈ s.context.roots) :
      Accessed env s id kind pointer fields .value (.ofList (fields.map fun field =>
        (field.path, if field.tracked then .ofValue (env.readAt kind id field) else .untracked))
          compare)
  | written : Accessed env s id kind pointer fields .place (.ofList (fields.map fun field =>
    (field.path, env.behind kind id pointer field)) compare)

/-- The extents of a struct literal, which holds all data of its fields. -/
def LiteralBundle (env : Env) (s : State) (id : NodeId) (ty : Ty) (fields : List (String × NodeId))
    (bundle : Bundle) : Prop :=
  (env.tracked ty = .ok false ∧ untrackedBundle env ty = .ok bundle) ∨
    env.tracked ty = .ok true ∧ ∃ entries members, env.fields ty = .ok members ∧
      List.Forall₂ (fun field part => ∃ flow, s.flowAt field.2 = some flow ∧
        part = fieldEntries field.1 flow.bundle) fields entries ∧
      bundle = members.foldl (fun bundle field =>
        bundle.insertIfNew field.path (defaultExtent (env.literalAt id) field))
          (.ofList entries.flatten compare) ∧
      ∀ field ∈ fields, ∀ flow, s.flowAt field.2 = some flow →
      ∀ data ∈ flow.bundle.tracked, s.context.graph.Near (env.literalAt id) data

/-- What the rule of a node records, when its operands have their results. -/
def Result (env : Env) (s : State) (id : NodeId) (ty : Ty) : Position → Expr → Bundle → Prop
  | .value, .var path, bundle => ∃ fields, env.fields ty = .ok fields ∧
      Lists fields (fun field entry => entry.1 = field.path ∧
        if field.tracked then s.frame.lookup? (path ++ field.path) = some entry.2
        else entry.2 = .untracked) bundle
  | .place, .var path, bundle => ∃ members, env.declarations.members ty = .ok members ∧
      Lists members (fun member entry => entry.1 = member.1 ∧
        s.frame.lookup? (path ++ member.1) = some entry.2) bundle
  | position, .dereference target, bundle => ∃ kind pointer fields,
      Pointer s (.dereference target) kind pointer ∧ env.fields ty = .ok fields ∧
        Accessed env s id kind pointer fields position bundle
  | position, .index target subscript, bundle => ∃ kind pointer fields,
      Pointer s (.index target subscript) kind pointer ∧ env.fields ty = .ok fields ∧
        Accessed env s id kind pointer fields position bundle
  | _, .memberAccess target name, bundle => ∃ flow members, s.flowAt target = some flow ∧
      bundle = flow.bundle.scopedTo (.single name) ∧ bundle.whole?.isNone = false ∧
      env.declarations.members ty = .ok members ∧ bundle.size = members.length
  | .value, .literal _, bundle | .value, .unary _ _, bundle | .value, .binary _ _ _, bundle =>
    untrackedBundle env ty = .ok bundle
  | .value, .addressOf target, bundle => ∃ flow extent, s.flowAt target = some flow ∧
      flow.bundle.whole? = some extent ∧ extent.slot.isNone = false ∧
      (extent.slot.isSlot = true → extent.slot.path ∈ s.context.exposed) ∧
      bundle = .ofList [(.whole, .ofValue extent.slot)] compare
  | .value, .new _, bundle => bundle = .ofList [(.whole, .ofValue (env.allocation id))] compare ∧
      env.allocation id ∈ s.context.roots
  | .value, .structLiteral fields, bundle => LiteralBundle env s id ty fields bundle
  | .value, .call _ _, bundle => ∃ fields, env.fields ty = .ok fields ∧
      bundle = .ofList (fields.map fun field => (field.path,
        if field.tracked then .ofValue (.root (env.tempPath "call" id) .heap)
        else .untracked)) compare ∧
      ∀ field ∈ fields, field.tracked = true →
      .root (env.tempPath "call" id) .heap ∈ s.context.roots
  | .value, .block statements, bundle => (ty.isVoid = true ∨ statements = []) ∧ bundle = ∅ ∨
      ty.isVoid = false ∧ ∃ last flow, statements.getLast? = some last ∧
        s.flowAt last = some flow ∧ bundle = flow.bundle
  | .value, .cond _ _ negative, bundle =>
      (ty.isVoid = true ∨ negative = none) ∧ bundle = ∅ ∨
      ty.isVoid = false ∧ ∃ fields, env.fields ty = .ok fields ∧
        bundle = .ofList (fields.map fun field => (field.path,
          if field.tracked then .ofValue (env.joinedAt id field) else .untracked)) compare
  | .value, .declaration path value, bundle =>
      bundle = ∅ ∧ ∃ ty fields, env.typeOf value = .ok ty ∧
      env.fields ty = .ok fields ∧
      ∀ field ∈ fields, ∃ extent, s.frame.lookup? (path ++ field.path) = some extent
  | .value, .assignment _ _, bundle | .value, .loop _ _, bundle | .value, .breakLoop, bundle
  | .value, .continueLoop, bundle => bundle = ∅
  | .place, _, _ => False

/-- The variables that an operand holds on to are among these. -/
def HeldBy (s : State) (operand : NodeId) (escaping : PathSet) : Prop :=
  ∃ flow, s.flowAt operand = some flow ∧ ∀ x ∈ flow.escaping, x ∈ escaping

/-- The variables that an operand holds on to are captured by the holder. -/
def CapturedBy (s : State) (operand : NodeId) (holder : Path) : Prop :=
  ∃ flow, s.flowAt operand = some flow ∧
    ∀ x ∈ flow.escaping, x = holder ∨ s.context.captures.held.Adj holder x

/-- What a node holds on to when it is recorded, and what variables have captured by then. Nothing
is said of what goes through references. -/
def Escapes (env : Env) (s : State) (ty : Ty) : Position → Expr → PathSet → Prop
  | .value, .var path, escaping => env.tracked ty = .ok true → path ∈ escaping
  | .place, .var path, escaping => path ∈ escaping
  | .value, .memberAccess target _, escaping => env.tracked ty = .ok true →
      HeldBy s target escaping
  | .place, .memberAccess target _, escaping => HeldBy s target escaping
  | .value, .addressOf target, escaping => HeldBy s target escaping
  | .value, .structLiteral fields, escaping => env.tracked ty = .ok true →
      ∀ field ∈ fields, HeldBy s field.2 escaping
  | .value, .block statements, escaping => ty.isVoid = false →
      ∀ last, statements.getLast? = some last → HeldBy s last escaping
  | .value, .cond _ positive (some negative), escaping =>
      ty.isVoid = false → env.tracked ty = .ok true →
      HeldBy s positive escaping ∧ HeldBy s negative escaping
  | .value, .declaration path value, _ => CapturedBy s value path
  | .value, .assignment target value, _ =>
      ∃ path?, placePath? env.owner env.owner.depth target = .ok path? ∧
      ∀ path, path? = some path → CapturedBy s value path
  | _, _, _ => True

/-! ## Transitions -/

/-- The state with a new version of a path, that the frame has adopted. -/
def State.adopted (s : State) (path : Path) (graph : Outlives) (frame : Frame) : State where
  context := { s.context with
    graph
    rebound := s.context.rebound ++ [(path, s.nextVersionOf path)]
    nextVersion := s.context.nextVersion + 1 }
  frame
  recorded := s.recorded

theorem logged_adopted (s : State) (path : Path) (graph : Outlives) (frame : Frame) :
    Logged s (s.adopted path graph frame) path (s.nextVersionOf path) := by
  simp [Logged, State.adopted]

theorem grows_adopted {s : State} {graph : Outlives} (hbelow : s.context.graph.Below graph)
    (path : Path) (frame : Frame) : Grows s (s.adopted path graph frame) :=
  { Grows.refl s with
    graph := hbelow
    rebound := List.prefix_append _ _
    nextVersion := Nat.le_succ _ }

/-- The variable in a slot has a new version, which stands for what is assigned to it. -/
abbrev State.rebinding (s : State) (slot assigned : Lifetime) (ty : Ty) (frame : Frame) : State :=
  s.adopted slot.path ((s.context.graph.unify (s.nextVersionOf slot.path) assigned).store
    (s.nextVersionOf slot.path) slot ty) frame

/-- So it is, but the frame does not know of the version. -/
abbrev State.renewing (s : State) (slot assigned : Lifetime) (ty : Ty) : State :=
  s.withContext { s.context with
    graph := (s.context.graph.unify (s.nextVersionOf slot.path) assigned).store
      (s.nextVersionOf slot.path) slot ty
    nextVersion := s.context.nextVersion + 1 }

/-- The variable at the path has the version that it has at the start of a loop. -/
abbrev State.entering (s : State) (path : Path) (extent : Extent) (frame : Frame) : State :=
  s.adopted path ((s.context.graph.store extent.value (s.nextVersionOf path)).store
    (s.nextVersionOf path) extent.slot) frame

/-- The variable at the path has a version that joins two branches. -/
abbrev State.joining (s : State) (path : Path) (positive negative : PathMap Extent)
    (before : Extent) (frame : Frame) : State :=
  s.adopted path (((s.context.graph.store (positive[path]?.getD before).value
    (s.nextVersionOf path)).store (negative[path]?.getD before).value
    (s.nextVersionOf path)).store (s.nextVersionOf path) before.slot) frame

/-- The state with the first version of a path, which stands for the data that it is given. -/
def State.introduced (s : State) (path : Path) (initial : Lifetime) (ty : Ty) : State where
  context := { s.context with
    graph :=
      (s.context.graph.unify (.first path) initial).store (.first path) (.root path .localSlot) ty }
  frame := s.frame.declare path ⟨.first path, .root path .localSlot⟩
  recorded := s.recorded

theorem below_renewing (s : State) (slot assigned : Lifetime) (ty : Ty) :
    s.context.graph.Below (s.renewing slot assigned ty).context.graph :=
  (Outlives.below_unify _ _ _).trans (Outlives.below_store _ _ _ _)

theorem grows_rebinding (s : State) (slot assigned : Lifetime) (ty : Ty) (frame : Frame) :
    Grows s (s.rebinding slot assigned ty frame) :=
  grows_adopted (below_renewing s slot assigned ty) slot.path frame

theorem grows_entering (s : State) (path : Path) (extent : Extent) (frame : Frame) :
    Grows s (s.entering path extent frame) :=
  grows_adopted ((Outlives.below_store _ _ _ _).trans (Outlives.below_store _ _ _ _)) path frame

theorem grows_joining (s : State) (path : Path) (positive negative : PathMap Extent)
    (before : Extent) (frame : Frame) : Grows s (s.joining path positive negative before frame) :=
  grows_adopted ((Outlives.below_store _ _ _ _).trans ((Outlives.below_store _ _ _ _).trans
    (Outlives.below_store _ _ _ _))) path frame

theorem runs_rebindLocal_adopted {s s' : State} {assigned : Lifetime} {ty : Ty}
    (h : Runs (rebindLocal slot assigned ty) s () s') :
    ∃ frame, s.frame.rebind slot.path ⟨s.nextVersionOf slot.path, slot⟩ = .ok frame ∧
      s' = s.rebinding slot assigned ty frame :=
  runs_rebindLocal_iff.1 h

theorem runs_enterLoop_adopted {s s' : State} {path : Path} {entry : Path × Lifetime}
    (h : Runs (enterLoop (path, extent)) s entry s') : entry = (path, s.nextVersionOf path) ∧
      ∃ frame, s.frame.rebind path ⟨s.nextVersionOf path, extent.slot⟩ = .ok frame ∧
        s' = s.entering path extent frame := by
  simp only [enterLoop, runs_bind_iff, runs_newVersion_iff, runs_store_iff, runs_adopt_iff,
    runs_pure_iff] at h
  obtain ⟨_, _, ⟨rfl, rfl⟩, _, _, rfl, _, _, rfl, _, _, ⟨frame, hframe, rfl⟩,
    rfl, rfl⟩ := h
  exact ⟨rfl, frame, hframe, rfl⟩

theorem runs_mergeVariable_adopted {s s' : State} {positive negative : PathMap Extent} {path : Path}
    (h : Runs (mergeVariable positive negative path) s () s') :
    ∃ before frame, s.frame.lookup? path = some before ∧
      s.frame.rebind path ⟨s.nextVersionOf path, before.slot⟩ = .ok frame ∧
        s' = s.joining path positive negative before frame := by
  simp only [mergeVariable, runs_bind_iff, runs_get_iff, runs_lift_iff, Frame.get_eq_ok_iff,
    runs_newVersion_iff, runs_store_iff, runs_adopt_iff] at h
  obtain ⟨_, _, ⟨rfl, rfl⟩, before, _, ⟨hbefore, rfl⟩, _, _, ⟨rfl, rfl⟩, _, _, rfl, _,
    _, rfl, _, _, rfl, frame, hframe, rfl⟩ := h
  exact ⟨before, frame, hbefore, hframe, rfl⟩

/-- A new version of the variable in a slot, before the frame knows of it. -/
def renew (slot assigned : Lifetime) (ty : Ty) : FlowM Lifetime := do
  let version ← newVersion slot.path
  unify version assigned
  store version slot ty
  return version

theorem rebindLocal_eq (slot assigned : Lifetime) (ty : Ty) :
    rebindLocal slot assigned ty = (do adopt (← renew slot assigned ty) slot) := by
  simp [rebindLocal, renew]

theorem runs_renew {s s' : State} {assigned version : Lifetime} {ty : Ty}
    (h : Runs (renew slot assigned ty) s version s') :
    version = s.nextVersionOf slot.path ∧ s' = s.renewing slot assigned ty := by
  simp only [renew, runs_bind_iff, runs_newVersion_iff, runs_unify_iff, runs_store_iff,
    runs_pure_iff] at h
  obtain ⟨_, _, ⟨rfl, rfl⟩, _, _, rfl, _, _, rfl, rfl, rfl⟩ := h
  exact ⟨rfl, rfl⟩

/-- One transition of the analysis. -/
inductive Step (X : Setting) : Progress X → State → Progress X → State → Prop
  /-- The own part of a rule begins, when the operands have their results. -/
  | begin {joins : List Lifetime} {s : State} (task : Task X) (hdone : task.done = [])
      (hsince : task.since = s.context) (hfresh : X.Acyclic → s.flowAt task.id = none)
      (hoperands : ∀ use ∈ task.node.expr.uses task.position, s.flowAt use.2 ≠ none) :
      Step X ⟨none, joins⟩ s ⟨some task, joins⟩ s
  | note {p : Progress X} {s : State} (captures : Captures) (heapWrites : List HeapWrite)
      (hlogged : s.context.heapWrites <+: heapWrites)
      (hcaptures : ∀ holder captured, s.context.captures.held.Adj holder captured →
        captures.held.Adj holder captured) :
      Step X p s p (s.withContext { s.context with captures, heapWrites })
  | region {p : Progress X} {s : State} (path : Path) (origin : Origin) :
      Step X p s p (s.withContext
        { s.context with roots := s.context.roots.insert (.root path origin) })
  | expose {task? : Option (Task X)} {joins : List Lifetime} {s : State} {path : Path}
      (hexposes : Exposes X s task? path) :
      Step X ⟨task?, joins⟩ s ⟨task?, joins⟩ (s.withContext
        { s.context with exposed := s.context.exposed.insert path })
  | store {task : Task X} {joins : List Lifetime} {s : State} {container stored : Lifetime}
      (ty? : Option Ty) (hstores : Stores s task container stored) :
      Step X ⟨some task, joins⟩ s ⟨some task, joins⟩
        (s.withGraph (s.context.graph.store stored container ty?))
  /-- A field of a variable that carries references is declared. -/
  | declared {task : Task X} {joins : List Lifetime} {s : State} {path : Path} {field : Field}
      {initial : Extent} (hdeclaring : Declaring s task path field (some initial))
      (htracked : field.tracked = true)
      (hslot : .root (path ++ field.path) .localSlot ∈ s.context.roots) :
      Step X ⟨some task, joins⟩ s ⟨some (task.did field.path), joins⟩
        (s.introduced (path ++ field.path) initial.value field.ty)
  /-- A field of a variable that carries none is declared. -/
  | plain {task : Task X} {joins : List Lifetime} {s : State} {path : Path} {field : Field}
      {initial? : Option Extent} (hdeclaring : Declaring s task path field initial?)
      (huntracked : field.tracked = false)
      (hslot : .root (path ++ field.path) .localSlot ∈ s.context.roots) :
      Step X ⟨some task, joins⟩ s ⟨some (task.did field.path), joins⟩
        { s with frame :=
            s.frame.declare (path ++ field.path) ⟨.none, .root (path ++ field.path) .localSlot⟩
              }
  /-- The variable in the place of a field gets a new version. -/
  | rebound {task : Task X} {joins : List Lifetime} {s : State} {field : Field} {place new : Extent}
      {frame : Frame} (hassigning : Assigning s task field place new)
      (hslot : place.slot.isSlot = true)
      (htracked : field.tracked = true) (hframe : s.frame.rebind place.slot.path
        ⟨s.nextVersionOf place.slot.path, place.slot⟩ = .ok frame) :
      Step X ⟨some task, joins⟩ s ⟨some (task.did field.path), joins⟩
        (s.rebinding place.slot new.value field.ty frame)
  /-- The variable in the place of a field would get a new version, but is not visible. -/
  | hidden {task : Task X} {joins : List Lifetime} {s : State} {field : Field} {place new : Extent}
      (hassigning : Assigning s task field place new) (hslot : place.slot.isSlot = true)
      (htracked : field.tracked = true) :
      Step X ⟨some task, joins⟩ s ⟨some (task.did field.path), joins⟩
        (s.renewing place.slot new.value field.ty)
  /-- The data of a field is stored behind a reference. -/
  | through {task : Task X} {joins : List Lifetime} {s : State} {field : Field} {place new : Extent}
      (ty? : Option Ty) (hassigning : Assigning s task field place new)
      (hslot : place.slot.isSlot = false) (hnew : new.value.isNone = false) :
      Step X ⟨some task, joins⟩ s ⟨some (task.did field.path), joins⟩
        (s.withGraph (s.context.graph.store new.value place.value ty?))
  | skip {task : Task X} {joins : List Lifetime} {s : State} (path : Path) :
      Step X ⟨some task, joins⟩ s ⟨some (task.did path), joins⟩ s
  /-- The own part of a rule ends. -/
  | record {task : Task X} {joins : List Lifetime}
      {s : State} {recorded : OwnerFlow} {bundle : Bundle} {escaping : PathSet}
      (hresult : Result X.env s task.id task.node.ty task.position task.node.expr bundle)
      (hrun : Runs (Flow.record task.id bundle escaping) s () { s with recorded })
      (hescapes : Escapes X.env s task.node.ty task.position task.node.expr escaping)
      (hfills : ∀ value, task.node.expr = .new (some value) →
        Fills X.env task.since.heapWrites.length s task.id value ∧ Cleared X.env s value) :
      Step X ⟨some task, joins⟩ s ⟨none, joins⟩ { s with recorded }
  /-- A field of a parameter is declared. -/
  | parameter {joins : List Lifetime} {s s' : State} {parameter : Parameter} {fields : List Field}
      {field : Field} (hparameter : parameter ∈ X.parameters)
      (hfields : X.env.fields parameter.ty = .ok fields) (hfield : field ∈ fields)
      (hrun : Runs (declareParameterMember parameter.path field) s () s') :
      Step X ⟨none, joins⟩ s ⟨none, joins⟩ s'
  /-- A variable gets the version that it has at the start of a loop. -/
  | entered {joins : List Lifetime} {s : State} {id condition body : NodeId} {node : Node}
      {effects : LoopEffects} {path : Path} {extent : Extent} {frame : Frame}
      (hvisited : X.visits .value id) (hnode : X.env.node id = .ok node)
      (hexpr : node.expr = .loop condition body)
      (heffects : loopEffects X.env.owner condition body = .ok effects)
      (hlookup : s.frame.lookup? path = some extent) (hsome : extent.value.isNone = false)
      (hchange : effects.mayChange s.context path = true)
      (hframe : s.frame.rebind path ⟨s.nextVersionOf path, extent.slot⟩ = .ok frame) :
      Step X ⟨none, joins⟩ s ⟨none, joins ++ [s.nextVersionOf path]⟩
        (s.entering path extent frame)
  /-- What a function returns is stored in the heap. -/
  | returned {joins : List Lifetime} {s : State} {id : NodeId} {flow : NodeFlow} {value : Lifetime}
      (ty? : Option Ty) (hflow : s.flowAt id = some flow) (hvalue : value ∈ flow.bundle.tracked) :
      Step X ⟨none, joins⟩ s ⟨none, joins⟩
        (s.withGraph (s.context.graph.store value .heap ty?))

/-- A variable that a branch has changed since `s₀` gets a version that joins the branches. -/
structure Joining (s₀ s : State) (path : Path) (positive negative : PathMap Extent)
    (before : Extent) (frame : Frame) : Prop where
  changed : path ∈ positive ∨ path ∈ negative
  loggedPositive : ∀ extent, positive[path]? = some extent → Logged s₀ s path extent.value
  loggedNegative : ∀ extent, negative[path]? = some extent → Logged s₀ s path extent.value
  lookup : s.frame.lookup? path = some before
  rebind : s.frame.rebind path ⟨s.nextVersionOf path, before.slot⟩ = .ok frame

/-- The version was made since `s₀`, for the start of a loop. -/
def Entered (s₀ s : State) (entry : Lifetime) : Prop :=
  Logged s₀ s entry.path entry ∧ s₀.context.nextVersion ≤ entry.version

/-- Versions flow back to the start of a loop that was entered since `s₀`. -/
inductive FlowsBack (p : Progress X) (s₀ s : State) : State → Prop
  | refl : FlowsBack p s₀ s s
  | next {s₁ : State} {entry version : Lifetime} (h : FlowsBack p s₀ s s₁) (ty? : Option Ty)
      (hentry : entry ∈ p.joins) (hentered : Entered s₀ s₁ entry)
      (hversion : Logged s₀ s₁ entry.path version) :
      FlowsBack p s₀ s (s₁.withGraph (s₁.context.graph.store version entry ty?))

/-- Transitions that leave every scope which they enter. -/
inductive Steps (X : Setting) : Progress X → State → Progress X → State → Prop
  | refl (p : Progress X) (s : State) : Steps X p s p s
  | step {p p₁ p' : Progress X} {s s₁ s' : State} (h : Steps X p s p₁ s₁)
      (hstep : Step X p₁ s₁ p' s') : Steps X p s p' s'
  /-- A scope was entered and is left again. The outer frame takes over some of its changes. -/
  | within {p p₁ p' : Progress X} {s s₁ s₂ : State} {enter : Frame → Frame} {frame : Frame}
      (h : Steps X p s p₁ s₁) (htask : p₁.task = none)
      (henter : enter = Frame.child ∨ enter = Frame.loopBody)
      (hinner : Steps X p₁ { s₁ with frame := enter s₁.frame } p' s₂)
      (htask' : p'.task = none)
      (hframe : s₁.frame.Absorbs s₂.frame frame) : Steps X p s p' { s₂ with frame }
  /-- A variable that a branch has changed since gets a version that joins the branches. -/
  | merged {p p₁ : Progress X} {s s₁ : State} {path : Path} {positive negative : PathMap Extent}
      {before : Extent} {frame : Frame} (h : Steps X p s p₁ s₁) (htask : p₁.task = none)
      (hjoining : Joining s s₁ path positive negative before frame) :
      Steps X p s ⟨none, p₁.joins ++ [s₁.nextVersionOf path]⟩
        (s₁.joining path positive negative before frame)
  /-- A loop ends: versions flow back, and the writes to the heap are checked once more. -/
  | looped {p p₁ p' : Progress X} {s s₁ s₂ s' : State} (h : Steps X p s p₁ s₁)
      (hidle : p₁.task = none) (hbody : Steps X p₁ s₁ p' s₂) (htask : p'.task = none)
      (hback : FlowsBack p' s₁ s₂ s')
      (hharmless : Harmless X.env s₁.context.heapWrites.length s') : Steps X p s p' s'

namespace Joining

variable {s₀ s s₁ : State} {path : Path} {positive negative : PathMap Extent} {before : Extent}
  {frame : Frame}

theorem grows (_ : Joining s₀ s path positive negative before frame) :
    Grows s (s.joining path positive negative before frame) :=
  grows_joining s path positive negative before frame

theorem earlier (h : Joining s₁ s path positive negative before frame)
    (hgrows : Grows s₀ s₁) : Joining s₀ s path positive negative before frame :=
  { h with
    loggedPositive := fun extent hextent => (h.loggedPositive extent hextent).earlier hgrows
    loggedNegative := fun extent hextent => (h.loggedNegative extent hextent).earlier hgrows }

/-- What either branch has changed has got a version since. -/
theorem exists_logged (h : Joining s₀ s path positive negative before frame) :
    ∃ version, Logged s₀ s path version := by
  rcases h.changed with hmem | hmem
  · obtain ⟨extent, hextent⟩ :=
      Option.isSome_iff_exists.1 (ExtTreeMap.mem_iff_isSome_getElem?.1 hmem)
    exact ⟨extent.value, h.loggedPositive extent hextent⟩
  · obtain ⟨extent, hextent⟩ :=
      Option.isSome_iff_exists.1 (ExtTreeMap.mem_iff_isSome_getElem?.1 hmem)
    exact ⟨extent.value, h.loggedNegative extent hextent⟩

end Joining

/-- States that are come by on the way, inside of scopes that are not left yet or outside. -/
inductive Inside (X : Setting) : Progress X → State → Progress X → State → Prop
  | here {p p' : Progress X} {s s' : State} (h : Steps X p s p' s') : Inside X p s p' s'
  | inner {p p₁ p' : Progress X} {s s₁ s' : State} {enter : Frame → Frame}
      (h : Steps X p s p₁ s₁) (htask : p₁.task = none)
      (henter : enter = Frame.child ∨ enter = Frame.loopBody)
      (hinner : Inside X p₁ { s₁ with frame := enter s₁.frame } p' s') : Inside X p s p' s'
  /-- A loop is about to end, when its writes to the heap are checked. -/
  | back {p p₁ p₂ p' : Progress X} {s s₁ s₂ s₃ s' : State} (h : Steps X p s p₁ s₁)
      (hbody : Steps X p₁ s₁ p₂ s₂) (htask : p₂.task = none)
      (hback : FlowsBack p₂ s₁ s₂ s₃)
      (hinner : Inside X p₂ s₃ p' s') : Inside X p s p' s'

/-! ## What all transitions have in common -/

variable {p p₁ p' : Progress X} {s s₁ s' : State}

theorem grows_store (stored container : Lifetime) (ty? : Option Ty) :
    Grows s (s.withGraph (s.context.graph.store stored container ty?)) :=
  (respected_grows ⟨0⟩).store stored container ty? s () _ (runs_store_iff.2 rfl)

theorem grows_unify (a b : Lifetime) : Grows s (s.withGraph (s.context.graph.unify a b)) :=
  { Grows.refl s with graph := Outlives.below_unify _ _ _ }

theorem Step.grows (h : Step X p s p' s') : Grows s s' := by
  cases h with
  | begin task => exact Grows.refl s
  | note captures heapWrites hlogged =>
    exact Grows.of_extends { Context.Extends.refl s.context with heapWrites := hlogged }
  | region path origin => exact Grows.of_extends (.insertRoot _ _)
  | expose => exact Grows.of_extends (.insertExposed _ _)
  | store ty? => exact grows_store _ _ ty?
  | declared =>
    exact (grows_unify _ _).trans ((grows_store _ _ _).trans (Grows.frame _ _))
  | plain => exact Grows.frame s _
  | rebound => exact grows_rebinding s _ _ _ _
  | hidden =>
      exact { Grows.refl s with graph := below_renewing s _ _ _, nextVersion := Nat.le_succ _ }
  | through ty? => exact grows_store _ _ ty?
  | skip path => exact Grows.refl s
  | record hresult hrun => exact Grows.of_record hrun
  | parameter hparameter hfields hfield hrun =>
    exact grows_of_match X.env ⟨0⟩ (Coupling.declareParameterMember trivial) _ _ _ hrun
  | entered => exact grows_entering s _ _ _
  | returned ty? => exact grows_store _ _ ty?

/-- A transition gives a result to the node at work, or leaves all results alone. -/
theorem Step.record_or_flowAt_eq (h : Step X p s p' s') : (∀ id, s'.flowAt id = s.flowAt id) ∨
    ∃ (task : Task X) (bundle : Bundle) (escaping : PathSet), p.task = some task ∧
    p'.task = none ∧ Result X.env s task.id task.node.ty task.position task.node.expr bundle ∧
      Runs (Flow.record task.id bundle escaping) s () s' ∧
      Escapes X.env s task.node.ty task.position task.node.expr escaping := by
  cases h with
  | record hresult hrun hescapes => exact .inr ⟨_, _, _, rfl, rfl, hresult, hrun, hescapes⟩
  | parameter _ _ _ hrun => exact .inl (frame_declareParameterMember hrun).1
  | _ => exact .inl fun _ => rfl

/-- The node at work goes on with what it has begun, or has got its result. -/
def Advances (p p' : Progress X) (s' : State) : Prop :=
  ∀ task, p.task = some task → s'.flowAt task.id ≠ none ∨
    ∃ task', p'.task = some task' ∧ task'.id = task.id ∧ task.done ⊆ task'.done ∧
    task'.since = task.since

theorem advances_of_task_eq_none (h : p.task = none) : Advances p p' s' := by
  intro task htask
  simp [h] at htask

theorem advances_refl (p : Progress X) (s' : State) : Advances p p s' :=
  fun task htask => .inr ⟨task, htask, rfl, List.Subset.refl _, rfl⟩

theorem advances_did (task : Task X) (path : Path) (joins : List Lifetime) (s' : State) :
    Advances ⟨some task, joins⟩ ⟨some (task.did path), joins⟩ s' := by
  intro other hother
  cases hother
  exact .inr ⟨_, rfl, rfl, List.subset_append_left _ _, rfl⟩

theorem Step.advances (h : Step X p s p' s') : Advances p p' s' := by
  cases h with
  | begin | entered => exact advances_of_task_eq_none rfl
  | note | region | expose | store | returned | parameter => exact advances_refl _ _
  | declared | plain | rebound | hidden | through | skip => exact advances_did _ _ _ _
  | record hresult hrun =>
    obtain ⟨-, -, -, hflow⟩ := runs_record hrun
    intro task htask
    cases htask
    exact .inl (by simp [hflow])

/-- What the node at work has found when it began stays. -/
theorem Step.since (h : Step X p s p' s')
    (hs : ∀ task, p.task = some task → task.since.graph.Below s.context.graph) :
    ∀ task, p'.task = some task → task.since.graph.Below s'.context.graph := by
  have hgrows := h.grows.graph
  intro task' htask'
  cases h with
  | begin task _ hsince =>
    cases htask'
    exact hsince ▸ Outlives.Below.refl _
  | note | region | expose | store | parameter | returned => exact (hs _ htask').trans hgrows
  | declared | plain | rebound | hidden | through | skip =>
    cases htask'
    exact (hs _ rfl).trans hgrows
  | record | entered => cases htask'

theorem FlowsBack.grows {s₀ : State} (h : FlowsBack p s₀ s s') : Grows s s' := by
  induction h with
  | refl => exact Grows.refl s
  | next _ ty? _ _ _ ih => exact ih.trans (grows_store _ _ ty?)

theorem FlowsBack.exists_graph {s₀ : State} (h : FlowsBack p s₀ s s') :
    ∃ graph, s' = s.withGraph graph := by
  induction h with
  | refl => exact ⟨s.context.graph, rfl⟩
  | next _ _ _ _ _ ih =>
    obtain ⟨graph, rfl⟩ := ih
    exact ⟨_, rfl⟩

theorem Steps.grows (h : Steps X p s p' s') : Grows s s' := by
  induction h with
  | refl p s => exact Grows.refl s
  | step _ hstep ih => exact ih.trans hstep.grows
  | within _ _ _ _ _ _ ih ih' =>
      exact ih.trans ((Grows.frame _ _).trans (ih'.trans (Grows.frame _ _)))
  | merged _ _ hjoining ih => exact ih.trans hjoining.grows
  | looped _ _ _ _ hback _ ih ih' => exact ih.trans (ih'.trans hback.grows)

theorem Steps.trans (h : Steps X p s p₁ s₁) (h' : Steps X p₁ s₁ p' s') :
    Steps X p s p' s' := by
  induction h' with
  | refl => exact h
  | step _ hstep ih => exact (ih h).step hstep
  | within _ htask henter hinner htask' hframe ih _ =>
      exact (ih h).within htask henter hinner htask' hframe
  | merged _ htask hjoining ih => exact (ih h).merged htask (hjoining.earlier h.grows)
  | looped _ hidle hbody htask hback hharmless ih _ =>
    exact (ih h).looped hidle hbody htask hback hharmless

theorem Steps.inside (h : Steps X p s p₁ s₁) (h' : Inside X p₁ s₁ p' s') :
    Inside X p s p' s' := by
  cases h' with
  | here h' => exact .here (h.trans h')
  | inner h' htask henter hinner => exact .inner (h.trans h') htask henter hinner
  | back h' hbody htask hback hinner => exact .back (h.trans h') hbody htask hback hinner

theorem Inside.grows (h : Inside X p s p' s') : Grows s s' := by
  induction h with
  | here h => exact h.grows
  | inner h _ _ _ ih => exact h.grows.trans ((Grows.frame _ _).trans ih)
  | back h hbody _ hback _ ih =>
    exact h.grows.trans (hbody.grows.trans (hback.grows.trans ih))

theorem Step.joins (h : Step X p s p' s') : p.joins ⊆ p'.joins := by
  cases h with
  | entered => exact List.subset_append_left _ _
  | _ => exact List.Subset.refl _

theorem Steps.joins (h : Steps X p s p' s') : p.joins ⊆ p'.joins := by
  induction h with
  | refl => exact List.Subset.refl _
  | step _ hstep ih => exact List.Subset.trans ih hstep.joins
  | within _ _ _ _ _ _ ih ih' => exact List.Subset.trans ih ih'
  | merged _ _ _ ih => exact List.Subset.trans ih (List.subset_append_left _ _)
  | looped _ _ _ _ _ _ ih ih' => exact List.Subset.trans ih ih'

/-! ## What lasts along the way -/

/-- The property `I` lasts along the way, where `K` is known of all states that are come by. -/
structure Lasts (X : Setting) (K I : Progress X → State → Prop) : Prop where
  step : ∀ {p p' s s'}, Step X p s p' s' → K p s → I p s → I p' s'
  enter : ∀ {p s} {enter : Frame → Frame}, p.task = none → enter = Frame.child ∨
    enter = Frame.loopBody → I p s → I p { s with frame := enter s.frame }
  leave : ∀ {p p' s s'} {frame : Frame}, p.task = none → p'.task = none → Grows s s' →
    s.frame.Absorbs s'.frame frame → I p s → I p' s' → I p' { s' with frame }
  join : ∀ {p₀ p s₀ s path positive negative before frame}, p.task = none →
    Joining s₀ s path positive negative before frame → K p s → I p₀ s₀ → I p s →
      I ⟨none, p.joins ++ [s.nextVersionOf path]⟩
      (s.joining path positive negative before frame)
  flowBack : ∀ {p₀ p s₀ s} {entry version : Lifetime} (ty? : Option Ty), p.task = none →
    entry ∈ p.joins → Entered s₀ s entry → Logged s₀ s entry.path version → K p s →
    I p₀ s₀ → I p s → I p (s.withGraph (s.context.graph.store version entry ty?))

namespace Lasts

variable {K I J : Progress X → State → Prop}

theorem and (h : Lasts X J K) (h' : Lasts X K I) : Lasts X J fun p s => K p s ∧ I p s where
  step hstep hs hI := ⟨h.step hstep hs hI.1, h'.step hstep hI.1 hI.2⟩
  enter htask henter hI := ⟨h.enter htask henter hI.1, h'.enter htask henter hI.2⟩
  leave htask htask' hgrows hframe hI hI' := ⟨h.leave htask htask' hgrows hframe hI.1 hI'.1,
      h'.leave htask htask' hgrows hframe hI.2 hI'.2⟩
  join htask hjoining hs hI₀ hI :=
    ⟨h.join htask hjoining hs hI₀.1 hI.1, h'.join htask hjoining hI.1 hI₀.2 hI.2⟩
  flowBack ty? htask hentry hentered hversion hs hI₀ hI :=
    ⟨h.flowBack ty? htask hentry hentered hversion hs hI₀.1 hI.1,
      h'.flowBack ty? htask hentry hentered hversion hI.1 hI₀.2 hI.2⟩

theorem weaken (h : Lasts X K I) (hK : ∀ {p s}, J p s → K p s) : Lasts X J I where
  step hstep hs := h.step hstep (hK hs)
  enter := h.enter
  leave := h.leave
  join htask hjoining hs := h.join htask hjoining (hK hs)
  flowBack ty? htask hentry hentered hversion hs :=
    h.flowBack ty? htask hentry hentered hversion (hK hs)

/-- Only a node that gets its result makes a difference. -/
theorem of_flowAt {F : State → Prop}
    (hstep : ∀ {p p' s s'}, Step X p s p' s' → K p s → F s → F s')
    (hsame : ∀ {s s'}, Grows s s' → (∀ id, s'.flowAt id = s.flowAt id) →
      s'.context.captures = s.context.captures → F s → F s') : Lasts X K fun _ s => F s where
  step := hstep
  enter _ _ hs := hsame (Grows.frame _ _) (fun _ => rfl) rfl hs
  leave _ _ _ _ _ hs := hsame (Grows.frame _ _) (fun _ => rfl) rfl hs
  join _ hjoining _ _ hs := hsame hjoining.grows (fun _ => rfl) rfl hs
  flowBack ty? _ _ _ _ _ _ hs := hsame (grows_store _ _ ty?) (fun _ => rfl) rfl hs

theorem of_task (hstep : ∀ {p p' s s'}, Step X p s p' s' → K p s → I p s → I p' s')
    (hidle : ∀ {p s}, p.task = none → I p s) : Lasts X K I where
  step := hstep
  enter htask _ _ := hidle htask
  leave _ htask' _ _ _ _ := hidle htask'
  join _ _ _ _ _ := hidle rfl
  flowBack _ htask _ _ _ _ _ _ := hidle htask

theorem flowsBack (h : Lasts X (fun _ _ => True) I) {p₀ : Progress X} {s₀ : State}
    (hback : FlowsBack p s₀ s s') (htask : p.task = none) (hs₀ : I p₀ s₀) (hs : I p s) :
    I p s' := by
  induction hback with
  | refl => exact hs
  | next _ ty? hentry hentered hversion ih =>
    exact h.flowBack ty? htask hentry hentered hversion trivial hs₀ ih

theorem steps (h : Lasts X (fun _ _ => True) I) (hsteps : Steps X p s p' s') (hs : I p s) :
    I p' s' := by
  induction hsteps with
  | refl => exact hs
  | step _ hstep ih => exact h.step hstep trivial (ih hs)
  | within _ htask henter hinner htask' hframe ih ih' =>
    have hgrows := (Grows.frame _ _).trans hinner.grows
    exact h.leave htask htask' hgrows hframe (ih hs) (ih' (h.enter htask henter (ih hs)))
  | merged _ htask hjoining ih => exact h.join htask hjoining trivial hs (ih hs)
  | looped _ _ _ htask hback _ ih ih' =>
    exact h.flowsBack hback htask (ih hs) (ih' (ih hs))

theorem inside (h : Lasts X (fun _ _ => True) I) (hinside : Inside X p s p' s') (hs : I p s) :
    I p' s' := by
  induction hinside with
  | here hsteps => exact h.steps hsteps hs
  | inner hsteps htask henter _ ih => exact ih (h.enter htask henter (h.steps hsteps hs))
  | back hsteps hbody htask hback _ ih =>
    have hstart := h.steps hsteps hs
    exact ih (h.flowsBack hback htask hstart (h.steps hbody hstart))

end Lasts

/-! ## What transitions do to the frame -/

/-- The node at work has no result yet. -/
def Progress.Fresh (p : Progress X) (s : State) : Prop :=
  ∀ task, p.task = some task → X.Acyclic → s.flowAt task.id = none

theorem Progress.fresh_of_task_eq_none (h : p.task = none) : p.Fresh s := by
  intro task htask
  simp [h] at htask

/-- The path belongs to a parameter, or to a variable whose declaration is still to come. -/
def Opens (X : Setting) (s : State) (path : Path) : Prop :=
  (∃ parameter ∈ X.parameters, ∃ m, path = parameter.path ++ m) ∨
    ∃ id node x value m, X.visits .value id ∧ X.env.node id = .ok node ∧
      node.expr = .declaration x value ∧ path = x ++ m ∧ (X.Acyclic → s.flowAt id = none)

theorem Opens.earlier {path : Path} (h : Opens X s₁ path) (hgrows : Grows s s₁) :
    Opens X s path := by
  rcases h with hparameter | ⟨id, node, x, value, m, hvisit, hnode, hexpr, hpath, hfresh⟩
  · exact .inl hparameter
  · refine .inr ⟨id, node, x, value, m, hvisit, hnode, hexpr, hpath, fun hacyclic => ?_⟩
    by_contra hsome
    exact hgrows.recorded_ne_none hsome (hfresh hacyclic)

/-- The innermost scope has changed, but keeps its paths; what is new was declared, or is a new
version. -/
structure Reframes (X : Setting) (s s' : State) : Prop where
  grows : Grows s s'
  enclosing : s'.frame.enclosing = s.frame.enclosing
  inLoop : s'.frame.inLoop = s.frame.inLoop
  declared : ∀ path ∈ s.frame.innermost.declared, path ∈ s'.frame.innermost.declared
  kept : ∀ path : Path, s'.frame.innermost.bindings[path]? = none →
    s.frame.innermost.bindings[path]? = none
  bindings : ∀ (path : Path) extent, s'.frame.innermost.bindings[path]? = some extent →
    s.frame.innermost.bindings[path]? = some extent ∨ Logged s s' path extent.value ∨
      path ∈ s'.frame.innermost.declared ∧ Opens X s path
  opened : ∀ path ∈ s'.frame.innermost.declared, path ∈ s.frame.innermost.declared ∨
    Opens X s path
  seen : ∀ path extent, s'.frame.lookup? path = some extent →
    (∃ before, s.frame.lookup? path = some before) ∨
    path ∈ s'.frame.innermost.declared ∧ Opens X s path

namespace Reframes

theorem of_frame_eq (hgrows : Grows s s') (hframe : s'.frame = s.frame) : Reframes X s s' where
  grows := hgrows
  enclosing := by rw [hframe]
  inLoop := by rw [hframe]
  declared := by
    intro path hpath
    rwa [hframe]
  kept := by
    intro path hpath
    rwa [← hframe]
  bindings := by
    intro path extent hextent
    rw [hframe] at hextent
    exact .inl hextent
  opened := fun path hpath => .inl (hframe ▸ hpath)
  seen := fun path extent hextent => .inl ⟨extent, hframe ▸ hextent⟩

theorem refl (s : State) : Reframes X s s := of_frame_eq (Grows.refl s) rfl

theorem trans (h : Reframes X s s₁) (h' : Reframes X s₁ s') : Reframes X s s' where
  grows := h.grows.trans h'.grows
  enclosing := h'.enclosing.trans h.enclosing
  inLoop := h'.inLoop.trans h.inLoop
  declared := fun path hpath => h'.declared path (h.declared path hpath)
  kept := fun path hpath => h.kept path (h'.kept path hpath)
  bindings := by
    intro path extent hextent
    rcases h'.bindings path extent hextent with hsame | hlogged | ⟨hdeclared, hopens⟩
    · rcases h.bindings path extent hsame with hsame | hlogged | ⟨hdeclared, hopens⟩
      · exact .inl hsame
      · exact .inr (.inl (hlogged.later h'.grows))
      · exact .inr (.inr ⟨h'.declared path hdeclared, hopens⟩)
    · exact .inr (.inl (hlogged.earlier h.grows))
    · exact .inr (.inr ⟨hdeclared, hopens.earlier h.grows⟩)
  opened := by
    intro path hpath
    rcases h'.opened path hpath with hpath | hopens
    · exact h.opened path hpath
    · exact .inr (hopens.earlier h.grows)
  seen := by
    intro path extent hextent
    rcases h'.seen path extent hextent with ⟨before, hbefore⟩ | ⟨hdeclared, hopens⟩
    · exact (h.seen path before hbefore).imp_right fun hopens =>
        ⟨h'.declared path hopens.1, hopens.2⟩
    · exact .inr ⟨hdeclared, hopens.earlier h.grows⟩

/-- A declaration adds an entry to the innermost scope. -/
theorem declare {path : Path} (hgrows : Grows s s')
    (hframe : s'.frame = s.frame.declare path extent) (hopens : Opens X s path) :
    Reframes X s s' where
  grows := hgrows
  enclosing := by simp [hframe, Frame.declare]
  inLoop := by simp [hframe, Frame.declare]
  declared := by
    intro other hother
    rw [hframe]
    exact ExtTreeSet.mem_insert.2 (.inr hother)
  kept := by
    intro other hother
    rw [hframe] at hother
    simp only [Frame.declare, ExtTreeMap.getElem?_insert] at hother
    split at hother
    · cases hother
    · exact hother
  bindings := by
    intro other found hfound
    rw [hframe] at hfound ⊢
    simp only [Frame.declare, ExtTreeMap.getElem?_insert, Std.compare_eq_iff_eq] at hfound
    split at hfound
    · rename_i heq
      subst heq
      exact .inr (.inr ⟨ExtTreeSet.mem_insert.2 (.inl (by simp)), hopens⟩)
    · exact .inl hfound
  opened := by
    intro other hother
    rw [hframe] at hother
    rcases ExtTreeSet.mem_insert.1 hother with heq | hother
    · rw [Std.compare_eq_iff_eq] at heq
      exact .inr (heq ▸ hopens)
    · exact .inl hother
  seen := by
    intro other found hfound
    rw [hframe, Frame.lookup?_declare] at hfound
    split at hfound
    · rename_i heq
      rw [hframe, heq]
      exact .inr ⟨ExtTreeSet.mem_insert_self, hopens⟩
    · exact .inl ⟨found, hfound⟩

/-- A new version gets an entry in the innermost scope. -/
theorem rebind {path : Path} (hgrows : Grows s s')
    (hframe : s.frame.rebind path extent = .ok s'.frame) (hlogged : Logged s s' path extent.value) :
    Reframes X s s' := by
  obtain ⟨-, hdeclared, before, hbefore⟩ := Frame.rebind_scopes hframe
  have hseen := Frame.lookup?_rebind hframe
  unfold Frame.rebind at hframe
  split at hframe
  · have hframe := (Except.ok.inj hframe).symm
    refine ⟨hgrows,
      by simp [hframe], by simp [hframe], fun other hother => by simpa [hframe] using hother,
      fun other hother => ?_, fun other found hfound => ?_, fun other hother =>
      .inl (hdeclared ▸ hother),
      fun other found hfound => .inl ?_⟩
    · simp only [hframe, ExtTreeMap.getElem?_insert] at hother
      split at hother
      · cases hother
      · exact hother
    · simp only [hframe, ExtTreeMap.getElem?_insert, Std.compare_eq_iff_eq] at hfound
      split at hfound
      · rename_i heq
        subst heq
        cases hfound
        exact .inr (.inl hlogged)
      · exact .inl hfound
    · rw [hseen] at hfound
      split at hfound
      · rename_i heq
        exact ⟨before, heq ▸ hbefore⟩
      · exact ⟨found, hfound⟩
  · cases hframe

theorem adopted {path : Path} {graph : Outlives} {frame : Frame}
    (hgrows : Grows s (s.adopted path graph frame))
    (hframe : s.frame.rebind path ⟨s.nextVersionOf path, slot⟩ = .ok frame) :
    Reframes X s (s.adopted path graph frame) :=
  .rebind hgrows hframe (logged_adopted _ _ _ _)

/-- What a scope entered on the way has changed about the variables around it is a new version. -/
theorem rebindings (henter : enter = Frame.child ∨ enter = Frame.loopBody)
    (h : Reframes X { s with frame := enter s.frame } s') {path : Path}
    (hextent : s'.frame.rebindings[path]? = some extent) : Logged s s' path extent.value := by
  obtain ⟨hdeclared, hextent⟩ := Frame.getElem?_rebindings_eq_some.1 hextent
  rcases h.bindings path extent hextent with hsame | hlogged | ⟨hmem, -⟩
  · rcases henter with rfl | rfl <;> simp [Frame.child, Frame.loopBody, Scope.empty] at hsame
  · exact hlogged
  · exact absurd hmem hdeclared

/-- What a scope entered on the way has changed can be looked up around it. -/
theorem exists_lookup (henter : enter = Frame.child ∨ enter = Frame.loopBody)
    (h : Reframes X { s with frame := enter s.frame } s') {path : Path}
    (hpath : path ∈ s'.frame.rebindings) : ∃ extent, s.frame.lookup? path = some extent := by
  obtain ⟨extent, hextent⟩ :=
    Option.isSome_iff_exists.1 (ExtTreeMap.mem_iff_isSome_getElem?.1 hpath)
  have hdeclared := (Frame.getElem?_rebindings_eq_some.1 hextent).1
  rcases h.seen path extent (Frame.lookup?_of_rebindings hextent)
    with ⟨before, hbefore⟩ | ⟨hopened, -⟩
  · refine ⟨before, Eq.trans ?_ hbefore⟩
    rcases henter with rfl | rfl
    · exact (Frame.lookup?_child _ path).symm
    · exact (Frame.lookup?_loopBody _ path).symm
  · exact absurd hopened hdeclared

/-- Of a variable that was visible before, a scope entered on the way passes on what can be looked
up in it. -/
theorem getD_rebindings {path : Path} (henter : enter = Frame.child ∨ enter = Frame.loopBody)
    (h : Reframes X { s with frame := enter s.frame } s')
    (hvisible : s.frame.lookup? path = some extent)
    (hclosed : ¬ Opens X { s with frame := enter s.frame } path) :
    s'.frame.lookup? path = some (s'.frame.rebindings[path]?.getD extent) := by
  have hdeclared : path ∉ s'.frame.innermost.declared := by
    intro hpath
    rcases h.opened path hpath with hold | hopens
    · rcases henter with rfl | rfl <;> exact absurd hold ExtTreeSet.not_mem_empty
    · exact hclosed hopens
  have houter : (s'.frame.enclosing.findSome? fun scope => scope.bindings[path]?) = some
      extent := by
    rw [h.enclosing, ← hvisible]
    rcases henter with rfl | rfl <;> rfl
  rw [Frame.lookup?_eq, houter, Frame.getElem?_rebindings, if_neg hdeclared]
  cases s'.frame.innermost.bindings[path]? <;> rfl

theorem within {frame : Frame} {s₂ : State}
    (henter : enter = Frame.child ∨ enter = Frame.loopBody)
    (h : Reframes X { s with frame := enter s.frame } s₂)
    (hframe : s.frame.Absorbs s₂.frame frame) : Reframes X s { s₂ with frame } where
  grows := ((Grows.frame s _).trans h.grows).trans (Grows.frame _ _)
  enclosing := hframe.enclosing
  inLoop := hframe.inLoop
  declared := by
    intro path hpath
    rwa [hframe.declared]
  kept := by
    intro path hpath
    rcases hframe.bindings path with hsame | ⟨extent, -, hsome⟩
    · rwa [hsame] at hpath
    · rw [hsome] at hpath
      cases hpath
  bindings := by
    intro path extent hextent
    rcases hframe.bindings path with hsame | ⟨changed, hchanged, hsome⟩
    · rw [hsame] at hextent
      exact .inl hextent
    · rw [hsome] at hextent
      cases hextent
      exact .inr (.inl (h.rebindings henter hchanged))
  opened := fun path hpath => .inl (hframe.declared ▸ hpath)
  seen := by
    intro path extent hextent
    rw [Frame.lookup?_eq] at hextent
    rcases hframe.bindings path with hsame | ⟨changed, hchanged, -⟩
    · rw [hsame, hframe.enclosing, ← Frame.lookup?_eq] at hextent
      exact .inl ⟨extent, hextent⟩
    · exact .inl
        (h.exists_lookup henter (ExtTreeMap.mem_iff_isSome_getElem?.2 (by simp [hchanged])))

theorem visible (h : Reframes X s s') (path : Path)
    (hpath : ∃ extent, s.frame.lookup? path = some extent) :
    ∃ extent, s'.frame.lookup? path = some extent := by
  rw [Frame.lookup?_eq] at hpath ⊢
  cases hbinding : s'.frame.innermost.bindings[path]? with
  | some found => exact ⟨found, rfl⟩
  | none => rwa [h.kept path hbinding, ← h.enclosing] at hpath

/-- What a path is bound to was so before, or is a new version, or the path was declared. -/
theorem lookup (h : Reframes X s s') {path : Path} (hlookup : s'.frame.lookup? path = some extent) :
    s.frame.lookup? path = some extent ∨ Logged s s' path extent.value ∨ Opens X s path := by
  rw [Frame.lookup?_eq] at hlookup
  cases hbinding : s'.frame.innermost.bindings[path]? with
  | none =>
    rw [hbinding, Option.none_or, h.enclosing] at hlookup
    rw [Frame.lookup?_eq, h.kept path hbinding, Option.none_or]
    exact .inl hlookup
  | some found =>
    rw [hbinding, Option.some_or] at hlookup
    cases hlookup
    rcases h.bindings path extent hbinding with hsame | hlogged | ⟨-, hopens⟩
    · rw [Frame.lookup?_eq, hsame, Option.some_or]
      exact .inl rfl
    · exact .inr (.inl hlogged)
    · exact .inr (.inr hopens)

end Reframes

theorem Declaring.opens {task : Task X} {path : Path} {field : Field} {initial? : Option Extent}
    (h : Declaring s task path field initial?)
    (hfresh : X.Acyclic → s.flowAt task.id = none) : Opens X s (path ++ field.path) := by
  obtain ⟨value, flow, ty, fields, hexpr, -⟩ := h.operands
  exact .inr
    ⟨task.id, task.node, path, value, field.path, h.position ▸ task.visited, task.found, hexpr,
    rfl, hfresh⟩

theorem Progress.Fresh.did {task : Task X} {joins : List Lifetime}
    (h : Progress.Fresh ⟨some task, joins⟩ s) (hflow : ∀ id, s'.flowAt id = s.flowAt id)
    (path : Path) : Progress.Fresh ⟨some (task.did path), joins⟩ s' := by
  intro other hother hacyclic
  cases hother
  exact (hflow task.id).trans (h task rfl hacyclic)

theorem Step.reframes (h : Step X p s p' s') (hfresh : p.Fresh s) :
    p'.Fresh s' ∧ Reframes X s s' := by
  have hgrows := h.grows
  cases h with
  | begin task hdone hsince htask =>
    refine ⟨fun other hother => ?_, .refl s⟩
    cases hother
    exact htask
  | note | region | expose | store | returned => exact ⟨hfresh, .of_frame_eq hgrows rfl⟩
  | through | skip | hidden => exact ⟨hfresh.did (fun _ => rfl) _, .of_frame_eq hgrows rfl⟩
  | declared hdeclaring | plain hdeclaring =>
    exact ⟨hfresh.did (fun _ => rfl) _, .declare hgrows rfl (hdeclaring.opens (hfresh _ rfl))⟩
  | rebound hassigning hslot htracked hframe =>
    exact ⟨hfresh.did (fun _ => rfl) _, .adopted hgrows hframe⟩
  | record => exact ⟨Progress.fresh_of_task_eq_none rfl, .of_frame_eq hgrows rfl⟩
  | parameter hparameter hfields hfield hrun =>
    obtain ⟨-, extent, hframe, -⟩ := frame_declareParameterMember hrun
    exact ⟨Progress.fresh_of_task_eq_none rfl,
      .declare hgrows hframe (.inl ⟨_, hparameter, _, rfl⟩)⟩
  | entered hvisited hnode hexpr heffects hlookup hsome hchange hframe =>
    exact ⟨Progress.fresh_of_task_eq_none rfl, .adopted hgrows hframe⟩

theorem lasts_fresh {K : Progress X → State → Prop} : Lasts X K Progress.Fresh :=
  .of_task (fun hstep _ hs => (hstep.reframes hs).1) Progress.fresh_of_task_eq_none

theorem FlowsBack.reframes {s₀ : State} (h : FlowsBack p s₀ s s') : Reframes X s s' := by
  refine .of_frame_eq h.grows ?_
  obtain ⟨graph, rfl⟩ := h.exists_graph
  rfl

theorem Steps.reframes (h : Steps X p s p' s') (hfresh : p.Fresh s) :
    p'.Fresh s' ∧ Reframes X s s' := by
  induction h with
  | refl p s => exact ⟨hfresh, .refl s⟩
  | step _ hstep ih =>
    obtain ⟨hfresh₁, hframe⟩ := ih hfresh
    obtain ⟨hfresh', hframe'⟩ := hstep.reframes hfresh₁
    exact ⟨hfresh', hframe.trans hframe'⟩
  | within _ htask henter _ htask' hframe ih ih' =>
    obtain ⟨-, hinner⟩ := ih' (Progress.fresh_of_task_eq_none htask)
    exact ⟨Progress.fresh_of_task_eq_none htask',
      (ih hfresh).2.trans (.within henter hinner hframe)⟩
  | merged _ _ hjoining ih =>
    exact ⟨Progress.fresh_of_task_eq_none rfl,
      (ih hfresh).2.trans (.adopted hjoining.grows hjoining.rebind)⟩
  | looped _ _ _ htask hback _ ih ih' =>
    obtain ⟨hfresh₁, hframe⟩ := ih hfresh
    exact ⟨Progress.fresh_of_task_eq_none htask,
      hframe.trans ((ih' hfresh₁).2.trans hback.reframes)⟩

end Flow
end Regions
