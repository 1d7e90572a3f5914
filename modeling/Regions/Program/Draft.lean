import Regions.Program

/-!
# Drafts of function bodies

A body is drafted node by node, operands before the nodes that use them. Each step checks the
types of its operands and computes the type of the new node; names are resolved to the paths of
variables as scopes open and close. A step that does not fit is a fault, and ends the draft.
-/

namespace Regions

/-- The variables of one block: for each name, the path and the type of its variable. -/
structure NameScope where
  path : Path
  names : Std.ExtTreeMap String (Path × Ty)

/-- A body under construction. -/
structure Draft where
  nodes : Arena Node
  innermost : NameScope
  enclosing : List NameScope
  /-- The number of blocks opened so far. -/
  blocks : Nat
  /-- The span of the next node, or of the next block. -/
  nextSpan : Option Span
  /-- Nodes with a label of their own. -/
  labels : Std.ExtTreeMap String NodeId

/-- A step of a draft. -/
abbrev DraftM := StateT Draft (Except Fault)

namespace Draft

/-- The draft of a function's body, before any node. -/
def start (function : Path) : Draft where
  nodes := .empty
  innermost := ⟨function, ∅⟩
  enclosing := []
  blocks := 0
  nextSpan := none
  labels := ∅

/-- The variable that a name stands for: the innermost one. -/
def resolve? (draft : Draft) (name : String) : Option (Path × Ty) :=
  (draft.innermost :: draft.enclosing).findSome? fun scope => scope.names[name]?

end Draft

namespace DraftM

/-! ## Nodes, spans, names and labels -/

/-- Gives the next node, or the next block, a span. -/
def setSpan (span : Span) : DraftM Unit :=
  modify fun draft => { draft with nextSpan := some span }

def push (expr : Expr) (ty : Ty) : DraftM NodeId :=
  modifyGet fun draft =>
    (draft.nodes.nextId,
      { draft with
        nodes := draft.nodes.push { expr, ty, span := draft.nextSpan.getD ⟨0, 0⟩ }
        nextSpan := none })

/-- The type of a node that has to be there. -/
def typeOf (id : NodeId) : DraftM Ty := do
  match (← get).nodes.get? id with
  | some node => return node.ty
  | none => throw (.notBuilt id)

/-- Checks that a node may stand where a place is wanted. -/
def expectPlace (id : NodeId) : DraftM Unit := do
  let node ← (← get).nodes.get id
  unless node.expr.isPlace do
    throw (.notAPlace id node.expr)

/-- Declares a name in the innermost scope. -/
def bind (name : String) (path : Path) (ty : Ty) : DraftM Unit := do
  let draft ← get
  if name ∈ draft.innermost.names then
    throw (.duplicateVariable name)
  set { draft with
    innermost := { draft.innermost with names := draft.innermost.names.insert name (path, ty) } }

def setLabel (label : String) (id : NodeId) : DraftM Unit :=
  modify fun draft => { draft with labels := draft.labels.insert label id }

def labelled (label : String) : DraftM NodeId := do
  match (← get).labels[label]? with
  | some id => return id
  | none => throw (.unknownLabel label)

/-! ## One step for each shape of node -/

def literal : Literal → DraftM NodeId
  | .void => push (.literal .void) .void
  | .int value => push (.literal (.int value)) .int
  | .bool value => push (.literal (.bool value)) .bool

def var (name : String) : DraftM NodeId := do
  let some (path, ty) := (← get).resolve? name | throw (.unresolvedVariable name)
  push (.var path) ty

def addressOf (target : NodeId) : DraftM NodeId := do
  expectPlace target
  push (.addressOf target) (.pointer (← typeOf target))

def dereference (target : NodeId) : DraftM NodeId := do
  match ← typeOf target with
  | .pointer inner => push (.dereference target) inner
  | ty => throw (.notAPointer ty)

def index (target subscript : NodeId) : DraftM NodeId := do
  match ← typeOf target with
  | .array element => push (.index target subscript) element
  | ty => throw (.notAnArray ty)

/-- The type of a member that has to be there. -/
def memberType (decls : Declarations) (ty : Ty) (name : String) : DraftM Ty := do
  let some memberTy ← decls.memberType? ty name | throw (.noMember ty name)
  return memberTy

def memberAccess (decls : Declarations) (target : NodeId) (name : String) : DraftM NodeId := do
  let ty ← memberType decls (← typeOf target) name
  push (.memberAccess target name) ty

/-- Allocates a value of the type, without an initializer. -/
def newDefault (ty : Ty) : DraftM NodeId :=
  push (.new none) (.pointer ty)

/-- Allocates a copy of the initializer. -/
def newWith (initializer : NodeId) : DraftM NodeId := do
  push (.new (some initializer)) (.pointer (← typeOf initializer))

def structLiteral (decls : Declarations) (ty : Ty) (fields : List (String × NodeId)) :
    DraftM NodeId := do
  fields.forM fun field => discard (memberType decls ty field.1)
  push (.structLiteral fields) ty

def unary (op : UnaryOp) (operand : NodeId) : DraftM NodeId := do
  match op with
  | .not => push (.unary op operand) .bool
  | .negate =>
      match ← typeOf operand with
      | .int => push (.unary op operand) .int
      | ty => throw (.notNegatable ty)

def binary (op : BinaryOp) (lhs rhs : NodeId) : DraftM NodeId := do
  if op.isBoolean then
    push (.binary op lhs rhs) .bool
  else
    match ← typeOf lhs with
    | .int => push (.binary op lhs rhs) .int
    | .bool => push (.binary op lhs rhs) .bool
    | ty => throw (.badOperand op ty)

def call (decls : Declarations) (function : Path) (arguments : List NodeId) : DraftM NodeId := do
  let some signature := decls.functions[function]? | throw (.undeclaredCallee function)
  unless signature.parameters.length = arguments.length do
    throw (.argumentCount function signature.parameters.length arguments.length)
  push (.call function arguments) signature.returns

/-- Declares a variable in the innermost scope. -/
def declare (name : String) (value : NodeId) : DraftM NodeId := do
  let path := (← get).innermost.path.child name
  bind name path (← typeOf value)
  push (.declaration path value) .void

def assign (target value : NodeId) : DraftM NodeId := do
  expectPlace target
  let targetTy ← typeOf target
  let valueTy ← typeOf value
  unless targetTy = valueTy do
    throw (.assignmentType valueTy targetTy)
  push (.assignment target value) .void

/-- Branches on a condition. With two branches of one type the node has that type. -/
def cond (condition positive : NodeId) (negative : Option NodeId) : DraftM NodeId := do
  match negative with
  | none => push (.cond condition positive none) .void
  | some other =>
      let positiveTy ← typeOf positive
      let otherTy ← typeOf other
      push (.cond condition positive negative) (if positiveTy = otherTy then positiveTy else .void)

def loop (condition body : NodeId) : DraftM NodeId :=
  push (.loop condition body) .void

def breakLoop : DraftM NodeId := push .breakLoop .void

def continueLoop : DraftM NodeId := push .continueLoop .void

/-- Drafts a block: its statements stand in a scope of their own, whose path is numbered in the
order in which blocks open. The block has the type of its last statement. -/
def block (statements : DraftM (List NodeId)) : DraftM NodeId := do
  let draft ← get
  let path := draft.innermost.path.child ("$block_" ++ toString draft.blocks)
  set { draft with
    innermost := ⟨path, ∅⟩
    enclosing := draft.innermost :: draft.enclosing
    blocks := draft.blocks + 1
    nextSpan := none }
  let ids ← statements
  modify fun inner => { inner with
    innermost := draft.innermost
    enclosing := draft.enclosing }
  let ty ←
    match ids.getLast? with
    | some last => typeOf last
    | none => pure .void
  modify fun inner => { inner with nextSpan := draft.nextSpan }
  push (.block ids) ty

end DraftM

end Regions
