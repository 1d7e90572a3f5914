import Regions.Program.Term
import Regions.Proofs.Checks

/-!
# Successful steps of a draft

`Yields step d a d'` says that a step of a draft succeeds from `d`, gives `a`, and leaves `d'`. Each
way to build steps has one equation here, and so has each elementary step. The steps that add a node
check its operands, and compute its type from theirs.

* `Expr.Typed`: what the checks say about an expression with its type;
* `Pushes`: the step adds such an expression;
* `Drafted`: what drafting a term can do to the draft, step by step.
-/

namespace Regions

open Std

variable {u : Unit} {expr : Expr} {decls : Declarations}

/-! ## Successful steps -/

/-- From `d`, the step succeeds with `a` and leaves `d'`. -/
def Yields {α : Type} (step : DraftM α) (d : Draft) (a : α) (d' : Draft) : Prop :=
  step d = .ok (a, d')

section Steps

variable {α β : Type} {d d' : Draft} {u : PUnit}

@[simp] theorem yields_pure_iff {a b : α} : Yields (pure a) d b d' ↔ a = b ∧ d = d' := by
  change Except.ok (a, d) = .ok (b, d') ↔ _
  simp

@[simp] theorem yields_bind_iff {step : DraftM α} {next : α → DraftM β} {b : β} :
    Yields (step >>= next) d b d' ↔ ∃ a d₁, Yields step d a d₁ ∧ Yields
    (next a) d₁ b d' := by
  simp only [Yields, bind, StateT.bind, Except.bind]
  cases step d with
  | error e => simp
  | ok result =>
    constructor
    · intro h
      exact ⟨result.1, result.2, rfl, h⟩
    · rintro ⟨a, d₁, h, h'⟩
      cases h
      exact h'

@[simp] theorem yields_get_iff {t : Draft} : Yields get d t d' ↔ d = t ∧ d = d' := by
  simp [Yields, get, getThe, MonadStateOf.get, StateT.get, pure, Except.pure]

@[simp] theorem yields_set_iff {t : Draft} : Yields (set t) d u d' ↔ t = d' := by
  change Except.ok (PUnit.unit, t) = .ok (u, d') ↔ _
  simp

@[simp] theorem yields_modify_iff {f : Draft → Draft} :
    Yields (modify f) d u d' ↔ f d = d' := by
  simp [Yields, modify, modifyGet, MonadStateOf.modifyGet, StateT.modifyGet, pure, Except.pure]

@[simp] theorem yields_throw_iff {fault : Fault} {a : α} :
    Yields (throw fault) d a d' ↔ False := by
  simp [Yields, throw, throwThe, MonadExceptOf.throw, StateT.lift, bind, Except.bind]

@[simp] theorem yields_lift_iff {result : Except Fault α} {a : α} :
    Yields (liftM result : DraftM α) d a d' ↔ result = .ok a ∧ d' = d := by
  cases result with
  | error e => simp [Yields, liftM, monadLift, MonadLift.monadLift, StateT.lift, bind, Except.bind]
  | ok b =>
    simp only [Yields, liftM, monadLift, MonadLift.monadLift, StateT.lift, bind, Except.bind, pure,
      Except.pure, Except.ok.injEq, Prod.mk.injEq]
    exact and_congr_right fun _ => eq_comm

@[simp] theorem yields_discard_iff {step : DraftM α} :
    Yields (discard step) d u d' ↔ ∃ a, Yields step d a d' := by
  change Yields ((fun _ => PUnit.unit) <$> step) d u d' ↔ _
  simp only [← bind_pure_comp, yields_bind_iff, yields_pure_iff]
  constructor
  · rintro ⟨a, d₁, h, -, rfl⟩
    exact ⟨a, h⟩
  · rintro ⟨a, h⟩
    exact ⟨a, d', h, trivial, rfl⟩

theorem yields_forM_nil_iff {f : α → DraftM PUnit} : Yields ([].forM f) d u d' ↔ d = d' := by
  change Yields (pure PUnit.unit) d u d' ↔ _
  simp

theorem yields_forM_cons_iff {f : α → DraftM PUnit} {x : α} {xs : List α} :
    Yields ((x :: xs).forM f) d u d' ↔ ∃ d₁, Yields (f x) d () d₁ ∧ Yields
    (xs.forM f) d₁ () d' := by
  change Yields (f x >>= fun _ => xs.forM f) d u d' ↔ _
  rw [yields_bind_iff]
  constructor
  · rintro ⟨⟨⟩, d₁, h, h'⟩
    exact ⟨d₁, h, h'⟩
  · rintro ⟨d₁, h, h'⟩
    exact ⟨(), d₁, h, h'⟩

end Steps

namespace DraftM

variable {d d' : Draft} {id : NodeId} {ty : Ty} {name : String}

@[simp] theorem yields_setSpan_iff {span : Span} :
    Yields (setSpan span) d u d' ↔ { d with nextSpan := some span } = d' :=
  yields_modify_iff

theorem yields_push (h : Yields (push expr ty) d id d') : id = d.nodes.nextId ∧ ∃ span, d' =
      { d with nodes := d.nodes.push { expr, ty, span }, nextSpan := none } := by
  simp only [push, Yields, modifyGet, MonadStateOf.modifyGet, StateT.modifyGet, pure, Except.pure,
    Except.ok.injEq, Prod.mk.injEq] at h
  exact ⟨h.1.symm, _, h.2.symm⟩

@[simp] theorem yields_typeOf_iff :
    Yields (typeOf id) d ty d' ↔ ∃ node, d.nodes.get? id = some node ∧
    node.ty = ty ∧ d = d' := by
  simp only [typeOf, yields_bind_iff, yields_get_iff]
  constructor
  · rintro ⟨_, _, ⟨rfl, rfl⟩, h⟩
    split at h
    · rename_i node hnode
      obtain ⟨hty, rfl⟩ := yields_pure_iff.1 h
      exact ⟨node, hnode, hty, rfl⟩
    · exact (yields_throw_iff.1 h).elim
  · rintro ⟨node, hnode, rfl, rfl⟩
    refine ⟨d, d, ⟨rfl, rfl⟩, ?_⟩
    rw [hnode]
    exact yields_pure_iff.2 ⟨rfl, rfl⟩

theorem eq_of_yields_expectPlace (h : Yields (expectPlace id) d u d') : d' = d := by
  simp only [expectPlace, yields_bind_iff, yields_get_iff, yields_lift_iff] at h
  obtain ⟨_, _, ⟨rfl, rfl⟩, node, _, ⟨_, rfl⟩, h⟩ := h
  split at h
  · exact (yields_pure_iff.1 h).2.symm
  · exact (yields_throw_iff.1 h).elim

@[simp] theorem yields_memberType_iff {inner : Ty} :
    Yields (memberType decls ty name) d inner d' ↔
      decls.memberType? ty name = .ok (some inner) ∧ d = d' := by
  simp only [memberType, yields_bind_iff, yields_lift_iff]
  constructor
  · rintro ⟨inner?, _, ⟨hmember, rfl⟩, h⟩
    cases inner? with
    | none => exact (yields_throw_iff.1 h).elim
    | some inner' =>
      obtain ⟨rfl, rfl⟩ := yields_pure_iff.1 h
      exact ⟨hmember, rfl⟩
  · rintro ⟨hmember, rfl⟩
    exact ⟨_, _, ⟨hmember, rfl⟩, yields_pure_iff.2 ⟨rfl, rfl⟩⟩

theorem yields_bind {path : Path} (h : Yields (bind name path ty) d u d') :
    name ∉ d.innermost.names ∧ d' = { d with innermost :=
      { d.innermost with names := d.innermost.names.insert name (path, ty) } } := by
  simp only [bind, yields_bind_iff, yields_get_iff] at h
  obtain ⟨_, _, ⟨rfl, rfl⟩, h⟩ := h
  split at h
  · simp at h
  · rename_i hnew
    exact ⟨hnew, (yields_set_iff.1 h).symm⟩

theorem eq_of_yields_memberTypes {fields : List (String × NodeId)}
    (h : Yields (fields.forM fun field => discard (memberType decls ty field.1)) d u d') :
    d' = d := by
  induction fields with
  | nil => exact (yields_forM_nil_iff.1 h).symm
  | cons field fields ih =>
    obtain ⟨d₁, hfield, hfields⟩ := yields_forM_cons_iff.1 h
    obtain ⟨_, hfield⟩ := yields_discard_iff.1 hfield
    obtain ⟨-, rfl⟩ := yields_memberType_iff.1 hfield
    exact ih hfields

theorem yields_var (h : Yields (var name) d id d') :
    ∃ x ty, d.resolve? name = some (x, ty) ∧ Yields (push (.var x) ty) d id d' := by
  simp only [var, yields_bind_iff, yields_get_iff] at h
  obtain ⟨_, _, ⟨rfl, rfl⟩, h⟩ := h
  split at h
  · rename_i x ty hresolve
    exact ⟨x, ty, hresolve, h⟩
  · exact (yields_throw_iff.1 h).elim

theorem yields_declare {value : NodeId} (h : Yields (declare name value) d id d') :
    ∃ valueNode, d.nodes.get? value = some valueNode ∧ name ∉ d.innermost.names ∧
      Yields (push (.declaration (d.innermost.path.child name) value) .void) { d with
        innermost := { d.innermost with
          names :=
          d.innermost.names.insert name (d.innermost.path.child name, valueNode.ty) } } id d' := by
  simp only [declare, yields_bind_iff, yields_get_iff, yields_typeOf_iff] at h
  obtain ⟨_, _, ⟨rfl, rfl⟩, _, _, ⟨valueNode, hvalue, rfl, rfl⟩, _, d₁,
    hbind, hpush⟩ := h
  obtain ⟨hnew, rfl⟩ := yields_bind hbind
  exact ⟨valueNode, hvalue, hnew, hpush⟩

theorem eq_of_yields_labelled {label : String} (h : Yields (labelled label) d id d') : d' = d := by
  simp only [labelled, yields_bind_iff, yields_get_iff] at h
  obtain ⟨_, _, ⟨rfl, rfl⟩, h⟩ := h
  split at h
  · exact (yields_pure_iff.1 h).2.symm
  · exact (yields_throw_iff.1 h).elim

end DraftM

/-! ## Nodes and their types -/

/-- The type of a block is that of its last statement. -/
def BlockType (nodes : Arena Node) (statements : List NodeId) (ty : Ty) : Prop :=
  match statements.getLast? with
  | some last => ∃ node, nodes.get? last = some node ∧ node.ty = ty
  | none => ty = .void

/-- The operands that determine the type of the expression are there, and have types to match. -/
def Expr.Typed (decls : Declarations) (nodes : Arena Node) : Expr → Ty → Prop
  | .addressOf target, ty => ∃ node, nodes.get? target = some node ∧ ty = .pointer node.ty
  | .dereference target, ty => ∃ node, nodes.get? target = some node ∧ node.ty = .pointer ty
  | .index target _, ty => ∃ node, nodes.get? target = some node ∧ node.ty = .array ty
  | .memberAccess target name, ty =>
    ∃ node, nodes.get? target = some node ∧ decls.memberType? node.ty name = .ok (some ty)
  | .new _, ty => ∃ inner, ty = .pointer inner
  | .call function _, _ => function ∈ decls.functions
  | .block statements, ty => BlockType nodes statements ty
  | .assignment target value, ty => ty = .void ∧ ∃ targetNode valueNode,
      nodes.get? target = some targetNode ∧ nodes.get? value = some valueNode ∧
        targetNode.ty = valueNode.ty
  | .cond _ _ negative, ty => negative = none → ty = .void
  | .declaration _ _, ty | .loop _ _, ty | .breakLoop, ty | .continueLoop, ty => ty = .void
  | .literal _, ty | .unary _ _, ty | .binary _ _ _, ty => ty.aggregate? = none ∧
      ty.isReference = false
  | .var _, _ | .structLiteral _, _ => True

/-- The step adds the expression, with a type that its operands allow. -/
def Pushes (decls : Declarations) (expr : Expr) (step : DraftM NodeId) : Prop :=
  ∀ d id d', Yields step d id d' → ∃ ty, Yields (DraftM.push expr ty) d id d' ∧
    expr.Typed decls d.nodes ty

namespace Pushes

variable (decls : Declarations)

theorem push {decls : Declarations} {ty : Ty}
    (h : ∀ nodes, expr.Typed decls nodes ty) : Pushes decls expr (DraftM.push expr ty) :=
  fun d _ _ hrun => ⟨ty, hrun, h d.nodes⟩

theorem literal (value : Literal) : Pushes decls (.literal value) (DraftM.literal value) := by
  cases value <;> exact push fun _ => ⟨rfl, rfl⟩

theorem addressOf (target : NodeId) :
    Pushes decls (.addressOf target) (DraftM.addressOf target) := by
  intro d id d' h
  simp only [DraftM.addressOf, yields_bind_iff, DraftM.yields_typeOf_iff] at h
  obtain ⟨_, _, hplace, _, _, ⟨node, hnode, rfl, rfl⟩, hpush⟩ := h
  rw [DraftM.eq_of_yields_expectPlace hplace] at hnode hpush
  exact ⟨_, hpush, node, hnode, rfl⟩

theorem dereference (target : NodeId) :
    Pushes decls (.dereference target) (DraftM.dereference target) := by
  intro d id d' h
  simp only [DraftM.dereference, yields_bind_iff, DraftM.yields_typeOf_iff] at h
  obtain ⟨_, _, ⟨node, hnode, rfl, rfl⟩, h⟩ := h
  split at h
  · rename_i inner hinner
    exact ⟨_, h, node, hnode, hinner⟩
  · exact (yields_throw_iff.1 h).elim

theorem memberAccess (target : NodeId) (name : String) :
    Pushes decls (.memberAccess target name) (DraftM.memberAccess decls target name) := by
  intro d id d' h
  simp only [DraftM.memberAccess, yields_bind_iff, DraftM.yields_typeOf_iff,
    DraftM.yields_memberType_iff] at h
  obtain ⟨_, _, ⟨node, hnode, rfl, rfl⟩, _, _, ⟨hmember, rfl⟩, hpush⟩ := h
  exact ⟨_, hpush, node, hnode, hmember⟩

theorem index (target subscript : NodeId) :
    Pushes decls (.index target subscript) (DraftM.index target subscript) := by
  intro d id d' h
  simp only [DraftM.index, yields_bind_iff, DraftM.yields_typeOf_iff] at h
  obtain ⟨_, _, ⟨node, hnode, rfl, rfl⟩, h⟩ := h
  split at h
  · rename_i element helement
    exact ⟨_, h, node, hnode, helement⟩
  · exact (yields_throw_iff.1 h).elim

theorem newDefault (ty : Ty) : Pushes decls (.new none) (DraftM.newDefault ty) :=
  push fun _ => ⟨ty, rfl⟩

theorem newWith (initializer : NodeId) :
    Pushes decls (.new (some initializer)) (DraftM.newWith initializer) := by
  intro d id d' h
  simp only [DraftM.newWith, yields_bind_iff, DraftM.yields_typeOf_iff] at h
  obtain ⟨_, _, ⟨node, _, rfl, rfl⟩, hpush⟩ := h
  exact ⟨_, hpush, node.ty, rfl⟩

theorem structLiteral (ty : Ty) (fields : List (String × NodeId)) :
    Pushes decls (.structLiteral fields) (DraftM.structLiteral decls ty fields) := by
  intro d id d' h
  simp only [DraftM.structLiteral, yields_bind_iff] at h
  obtain ⟨_, d₁, hchecks, hpush⟩ := h
  rw [DraftM.eq_of_yields_memberTypes hchecks] at hpush
  exact ⟨ty, hpush, trivial⟩

theorem unary (op : UnaryOp) (operand : NodeId) :
    Pushes decls (.unary op operand) (DraftM.unary op operand) := by
  cases op with
  | not => exact push fun _ => ⟨rfl, rfl⟩
  | negate =>
    intro d id d' h
    simp only [DraftM.unary, yields_bind_iff, DraftM.yields_typeOf_iff] at h
    obtain ⟨ty, _, ⟨_, _, _, rfl⟩, h⟩ := h
    split at h
    · exact ⟨_, h, rfl, rfl⟩
    · exact (yields_throw_iff.1 h).elim

theorem binary (op : BinaryOp) (lhs rhs : NodeId) :
    Pushes decls (.binary op lhs rhs) (DraftM.binary op lhs rhs) := by
  intro d id d' h
  unfold DraftM.binary at h
  split at h
  · exact ⟨_, h, rfl, rfl⟩
  · simp only [yields_bind_iff, DraftM.yields_typeOf_iff] at h
    obtain ⟨ty, _, ⟨_, _, _, rfl⟩, h⟩ := h
    split at h
    · exact ⟨_, h, rfl, rfl⟩
    · exact ⟨_, h, rfl, rfl⟩
    · exact (yields_throw_iff.1 h).elim

theorem call (function : Path) (arguments : List NodeId) :
    Pushes decls (.call function arguments) (DraftM.call decls function arguments) := by
  intro d id d' h
  unfold DraftM.call at h
  split at h
  · rename_i signature hsignature
    dsimp only at h
    split at h
    · exact ⟨_, h, Std.ExtTreeMap.mem_iff_isSome_getElem?.2 (by simp [hsignature])⟩
    · simp at h
  · exact (yields_throw_iff.1 h).elim

theorem assign (target value : NodeId) :
    Pushes decls (.assignment target value) (DraftM.assign target value) := by
  intro d id d' h
  simp only [DraftM.assign, yields_bind_iff, DraftM.yields_typeOf_iff] at h
  obtain ⟨_, _, hplace, _, _, ⟨targetNode, htarget, rfl, rfl⟩, _, _,
    ⟨valueNode, hvalue, rfl, rfl⟩, h⟩ := h
  rw [DraftM.eq_of_yields_expectPlace hplace] at h htarget hvalue
  split at h
  · rename_i hty
    exact ⟨_, h, rfl, targetNode, valueNode, htarget, hvalue, hty⟩
  · simp at h

theorem cond (condition positive : NodeId) (negative : Option NodeId) :
    Pushes decls (.cond condition positive negative) (DraftM.cond condition positive negative) := by
  intro d id d' h
  cases negative with
  | none => exact ⟨.void, h, fun _ => rfl⟩
  | some other =>
    simp only [DraftM.cond, yields_bind_iff, DraftM.yields_typeOf_iff] at h
    obtain ⟨_, _, ⟨_, _, _, rfl⟩, _, _, ⟨_, _, _, rfl⟩, hpush⟩ := h
    exact ⟨_, hpush, by simp [Expr.Typed]⟩

theorem loop (condition body : NodeId) :
    Pushes decls (.loop condition body) (DraftM.loop condition body) :=
  push fun _ => rfl

theorem breakLoop : Pushes decls .breakLoop DraftM.breakLoop := push fun _ => rfl

theorem continueLoop : Pushes decls .continueLoop DraftM.continueLoop := push fun _ => rfl

end Pushes

/-! ## Drafts step by step -/

/-- The last segment of the path of a block. -/
def blockName (n : Nat) : String := "$block_" ++ toString n

/-- The draft at the start of a new block. -/
def Draft.opened (d : Draft) : Draft :=
  { d with
    innermost := ⟨d.innermost.path.child (blockName d.blocks), ∅⟩
    enclosing := d.innermost :: d.enclosing
    blocks := d.blocks + 1
    nextSpan := none }

/-- A block is drafted with its own scope open, and then pushed with the scopes as they were. -/
theorem yields_block {d d₂ : Draft} {id : NodeId} {statements : DraftM (List NodeId)}
    (h : Yields (DraftM.block statements) d id d₂) :
    ∃ ids d₁ ty, Yields statements d.opened ids d₁ ∧ BlockType d₁.nodes ids ty ∧
      Yields (DraftM.push (.block ids) ty) { d₁ with
        innermost := d.innermost, enclosing := d.enclosing, nextSpan := d.nextSpan } id d₂ := by
  simp only [DraftM.block, yields_bind_iff, yields_get_iff, yields_set_iff, yields_modify_iff] at h
  obtain ⟨_, _, ⟨rfl, rfl⟩, _, _, rfl, ids, d₁, hstatements, _, _, rfl, hend⟩ := h
  split at hend
  · rename_i last hlast
    simp only [yields_bind_iff, DraftM.yields_typeOf_iff, yields_modify_iff] at hend
    obtain ⟨ty, _, ⟨node, hnode, hty, rfl⟩, _, _, rfl, hpush⟩ := hend
    exact ⟨ids, d₁, ty, hstatements,
      by rw [BlockType, hlast]; exact ⟨node, hnode, hty⟩, hpush⟩
  · rename_i hlast
    simp only [yields_bind_iff, yields_pure_iff, yields_modify_iff] at hend
    obtain ⟨ty, _, ⟨rfl, rfl⟩, _, _, rfl, hpush⟩ := hend
    exact ⟨ids, d₁, _, hstatements, by rw [BlockType, hlast], hpush⟩

/-- The expression is that of no variable. -/
def Expr.Anonymous : Expr → Prop
  | .var _ | .declaration _ _ => False
  | _ => True

/-- What the draft knows about a node that binds no variable when it is added. -/
def Draft.Allows (decls : Declarations) (d : Draft) (expr : Expr) (ty : Ty) : Prop :=
  match expr with
  | .var x => ∃ name, d.resolve? name = some (x, ty)
  | .declaration _ _ => False
  | expr => expr.Typed decls d.nodes ty

theorem Draft.allows_of_typed {d : Draft} {ty : Ty}
    (h : expr.Typed decls d.nodes ty) (hnone : expr.Anonymous) : d.Allows decls expr ty := by
  cases expr <;> first | exact hnone.elim | exact h

/-- The draft goes on from one to the other: nodes are added, in the current scope or in a block. -/
inductive Drafted (decls : Declarations) : Draft → Draft → Prop
  | refl (d : Draft) : Drafted decls d d
  | noted {d d₁ : Draft} (h : Drafted decls d d₁) (nextSpan : Option Span)
      (labels : ExtTreeMap String NodeId) : Drafted decls d { d₁ with nextSpan, labels }
  | added {d d₁ : Draft} (h : Drafted decls d d₁) {expr : Expr} {ty : Ty} (span : Span)
      (hallows : d₁.Allows decls expr ty) :
      Drafted decls d { d₁ with nodes := d₁.nodes.push ⟨expr, ty, span⟩, nextSpan := none }
  | declared {d d₁ : Draft} (h : Drafted decls d d₁) {name : String} {value : NodeId}
      {valueNode : Node} (span : Span) (hvalue : d₁.nodes.get? value = some valueNode)
      (hnew : name ∉ d₁.innermost.names) : Drafted decls d { d₁ with
        nodes :=
          d₁.nodes.push ⟨.declaration (d₁.innermost.path.child name) value, .void, span⟩
        innermost := { d₁.innermost with
          names := d₁.innermost.names.insert name (d₁.innermost.path.child name, valueNode.ty) }
        nextSpan := none }
  | enclosed {d d₁ d₂ : Draft} (h : Drafted decls d d₁)
      (hinner : Drafted decls d₁.opened d₂) :
      Drafted decls d { d₂ with innermost := d₁.innermost, enclosing := d₁.enclosing }

theorem Drafted.trans {d d₁ d₂ : Draft} (h : Drafted decls d d₁)
    (h' : Drafted decls d₁ d₂) : Drafted decls d d₂ := by
  induction h' with
  | refl => exact h
  | noted _ nextSpan labels ih => exact (ih h).noted nextSpan labels
  | added _ span hallows ih => exact (ih h).added span hallows
  | declared _ span hvalue hnew ih => exact (ih h).declared span hvalue hnew
  | enclosed _ hinner ih _ => exact (ih h).enclosed hinner

/-! ## Functions -/

/-- The parts of drafting a function: its parameters are bound, then its body is drafted. -/
theorem yields_of_ofTerm {id : OwnerId} {signature : Signature} {body : Term}
    {owner : Owner} (h : Function.ofTerm decls id signature body = .ok owner) :
    owner.id = id ∧ ∃ function d d',
      owner.kind = .function function ∧ owner.nodes = d'.nodes ∧
      function.path = signature.path ∧
      function.parameters = signature.parameters.map (fun parameter =>
        { name := parameter.name, path := signature.path.child parameter.name, ty := parameter.ty,
          writable := parameter.writable }) ∧
      Yields (function.parameters.forM fun p => DraftM.bind p.name p.path p.ty)
      (.start signature.path) () d ∧ Yields (body.draftAt decls none) d function.body d' ∧
      ∃ node, d'.nodes.get? function.body = some node := by
  obtain ⟨⟨⟨root, ty⟩, draft⟩, hdraft, h⟩ := except_bind_eq_ok h
  have hyields : Yields _ _ _ _ := hdraft
  obtain ⟨_, d, hparameters, hyields⟩ := yields_bind_iff.1 hyields
  obtain ⟨root', d₁, hbody, hyields⟩ := yields_bind_iff.1 hyields
  obtain ⟨_, _, hty, hyields⟩ := yields_bind_iff.1 hyields
  obtain ⟨node, hnode, rfl, rfl⟩ := DraftM.yields_typeOf_iff.1 hty
  obtain ⟨heq, rfl⟩ := yields_pure_iff.1 hyields
  cases heq
  dsimp only at h
  split at h
  · cases h
    exact ⟨rfl, _, d, _, rfl, rfl, rfl, rfl, hparameters, hbody, node, hnode⟩
  · cases h

/-- Parameters are bound to names of their own. -/
theorem yields_bindParameters {parameters : List Parameter} {d d₂ : Draft}
    (h : Yields (parameters.forM fun p => DraftM.bind p.name p.path p.ty) d u d₂) :
    (parameters.map Parameter.name).Nodup ∧
    (∀ p ∈ parameters, p.name ∉ d.innermost.names) ∧
      ∃ names, d₂ = { d with innermost := { d.innermost with names } } ∧
      (∀ name, name ∈ names ↔ name ∈ d.innermost.names ∨
        ∃ p ∈ parameters, p.name = name) ∧
      ∀ (name : String) (bound : Path × Ty), names[name]? = some bound →
        d.innermost.names[name]? = some bound ∨
          ∃ p ∈ parameters, p.name = name ∧ (p.path, p.ty) = bound := by
  induction parameters generalizing d with
  | nil =>
    obtain rfl := yields_forM_nil_iff.1 h
    exact ⟨by simp, by simp, d.innermost.names, rfl, by simp, fun _ _ hbound => .inl hbound⟩
  | cons p parameters ih =>
    obtain ⟨d₁, hp, hrest⟩ := yields_forM_cons_iff.1 h
    obtain ⟨hnew, rfl⟩ := DraftM.yields_bind hp
    obtain ⟨hnodup, hother, names, rfl, hmem, hbound⟩ := ih hrest
    simp only [ExtTreeMap.mem_insert, Std.compare_eq_iff_eq, not_or] at hother hmem
    refine ⟨?_, ?_, names, rfl, fun name => ?_, fun name bound hname => ?_⟩
    · refine List.nodup_cons.2 ⟨fun hin => ?_, hnodup⟩
      obtain ⟨q, hq, hname⟩ := List.mem_map.1 hin
      exact (hother q hq).1 hname.symm
    · intro q hq
      rcases List.mem_cons.1 hq with rfl | hq
      · exact hnew
      · exact (hother q hq).2
    · rw [hmem]
      simp only [List.mem_cons, exists_eq_or_imp]
      grind
    · rcases hbound name bound hname with hold | ⟨q, hq, hqname⟩
      · rw [ExtTreeMap.getElem?_insert] at hold
        split at hold
        · rename_i hcmp
          cases hold
          exact .inr ⟨p, List.mem_cons_self, Std.compare_eq_iff_eq.1 hcmp, rfl⟩
        · exact .inl hold
      · exact .inr ⟨q, List.mem_cons_of_mem _ hq, hqname⟩

end Regions
