import Regions.Program.Draft

/-!
# Terms and items

The written form of programs. A term is an expression as a tree; an item is a top-level
declaration. `Term.draft` adds the nodes of a term to a draft, operands first, and
`Program.ofItems` builds a whole program with its declarations.
-/

namespace Regions

/-- An expression as a tree. The last six forms make no node of their own. -/
inductive Term
  | literal (value : Literal)
  | var (name : String)
  | addressOf (target : Term)
  | dereference (target : Term)
  | member (target : Term) (name : String)
  | index (target subscript : Term)
  | newDefault (ty : Ty)
  | newWith (initializer : Term)
  | record (ty : Ty) (fields : List (String × Term))
  | unary (op : UnaryOp) (operand : Term)
  | binary (op : BinaryOp) (lhs rhs : Term)
  | call (function : String) (arguments : List Term)
  | declare (name : String) (value : Term)
  | assign (target value : Term)
  | cond (condition positive : Term) (negative : Option Term)
  | loop (condition body : Term)
  | breakLoop
  | continueLoop
  | block (statements : List Term)
  /-- A node by its identifier, whether it is there or not. -/
  | node (id : NodeId)
  /-- The term, whose node gets a label. -/
  | labelled (label : String) (term : Term)
  /-- The node with a label, once more. -/
  | shared (label : String)
  /-- The second term; the nodes of the first stay in the body without being used. -/
  | after (unused term : Term)
  /-- The term, whose own node gets a span. -/
  | spanned (span : Span) (term : Term)
  /-- The term, of which the first node or block gets a span. -/
  | spanNext (span : Span) (term : Term)

/-- A top-level declaration as it is written. -/
inductive Item
  /-- Names a struct without declaring it. -/
  | forward (name : String)
  | aggregate (layout : Layout) (name : String) (members : List Declarator)
  /-- Declares a function without a body. -/
  | signature (name : String) (parameters : List Declarator) (returns : Ty)
  /-- Declares a function and gives its body. -/
  | function (name : String) (parameters : List Declarator) (returns : Ty) (body : Term)
  /-- Gives the body of a declared function. -/
  | define (name : String) (body : Term)

namespace Term

/-- Makes a node, with a span of its own if there is one. -/
def emit (span? : Option Span) (step : DraftM NodeId) : DraftM NodeId := do
  if let some span := span? then
    DraftM.setSpan span
  step

mutual

/-- Adds the nodes of a term to the draft. The term's own node gets the span. -/
def draftAt (decls : Declarations) (span? : Option Span) : Term → DraftM NodeId
  | .literal value => emit span? (DraftM.literal value)
  | .var name => emit span? (DraftM.var name)
  | .addressOf target => do
      let target ← target.draftAt decls none
      emit span? (DraftM.addressOf target)
  | .dereference target => do
      let target ← target.draftAt decls none
      emit span? (DraftM.dereference target)
  | .member target name => do
      let target ← target.draftAt decls none
      emit span? (DraftM.memberAccess decls target name)
  | .index target subscript => do
      let target ← target.draftAt decls none
      let subscript ← subscript.draftAt decls none
      emit span? (DraftM.index target subscript)
  | .newDefault ty => emit span? (DraftM.newDefault ty)
  | .newWith initializer => do
      let initializer ← initializer.draftAt decls none
      emit span? (DraftM.newWith initializer)
  | .record ty fields => do
      let fields ← draftFields decls fields
      emit span? (DraftM.structLiteral decls ty fields)
  | .unary op operand => do
      let operand ← operand.draftAt decls none
      emit span? (DraftM.unary op operand)
  | .binary op lhs rhs => do
      let lhs ← lhs.draftAt decls none
      let rhs ← rhs.draftAt decls none
      emit span? (DraftM.binary op lhs rhs)
  | .call function arguments => do
      let arguments ← draftList decls arguments
      emit span? (DraftM.call decls (.ofString function) arguments)
  | .declare name value => do
      let value ← value.draftAt decls none
      emit span? (DraftM.declare name value)
  | .assign target value => do
      let target ← target.draftAt decls none
      let value ← value.draftAt decls none
      emit span? (DraftM.assign target value)
  | .cond condition positive negative => do
      let condition ← condition.draftAt decls none
      let positive ← positive.draftAt decls none
      let negative ← draftOption decls negative
      emit span? (DraftM.cond condition positive negative)
  | .loop condition body => do
      let condition ← condition.draftAt decls none
      let body ← body.draftAt decls none
      emit span? (DraftM.loop condition body)
  | .breakLoop => emit span? DraftM.breakLoop
  | .continueLoop => emit span? DraftM.continueLoop
  | .block statements => emit span? (DraftM.block (draftList decls statements))
  | .node id => pure id
  | .labelled label term => do
      let id ← term.draftAt decls none
      DraftM.setLabel label id
      return id
  | .shared label => DraftM.labelled label
  | .after unused term => do
      let _ ← unused.draftAt decls none
      term.draftAt decls none
  | .spanned span term => term.draftAt decls (some span)
  | .spanNext span term => do
      DraftM.setSpan span
      term.draftAt decls none

/-- Adds the nodes of terms in order. -/
def draftList (decls : Declarations) : List Term → DraftM (List NodeId)
  | [] => pure []
  | term :: terms => do
      let id ← term.draftAt decls none
      let ids ← draftList decls terms
      return id :: ids

/-- Adds the nodes of the fields of a struct literal in order. -/
def draftFields (decls : Declarations) : List (String × Term) → DraftM (List (String × NodeId))
  | [] => pure []
  | (name, term) :: fields => do
      let id ← term.draftAt decls none
      let ids ← draftFields decls fields
      return (name, id) :: ids

/-- Adds the nodes of a term that may be missing. -/
def draftOption (decls : Declarations) : Option Term → DraftM (Option NodeId)
  | none => pure none
  | some term => do
      let id ← term.draftAt decls none
      return some id

end

end Term

/-! ## Programs from items -/

/-- The function with a body drafted from a term. -/
def Function.ofTerm (decls : Declarations) (id : OwnerId) (signature : Signature) (body : Term) :
    Except Fault Owner := do
  let parameters := signature.parameters.map fun parameter =>
    { name := parameter.name, path := signature.path.child parameter.name, ty := parameter.ty,
      writable := parameter.writable : Parameter }
  let drafting : DraftM (NodeId × Ty) := do
    parameters.forM fun parameter => DraftM.bind parameter.name parameter.path parameter.ty
    let root ← body.draftAt decls none
    return (root, ← DraftM.typeOf root)
  let ((root, ty), draft) ← drafting.run (.start signature.path)
  unless signature.returns.isVoid || ty = signature.returns do
    throw (.bodyType signature.path ty signature.returns)
  return {
    id
    kind := .function
      { path := signature.path, parameters, returns := signature.returns, body := root }
    nodes := draft.nodes }

namespace Program

/-- A program under construction: what is declared, and the owners so far. -/
structure Assembly where
  declarations : Declarations := ∅
  program : Program := .empty

namespace Assembly

def nextOwner (assembly : Assembly) : OwnerId := ⟨assembly.program.owners.size⟩

def addOwner (assembly : Assembly) (owner : Owner) : Assembly :=
  { assembly with program := ⟨assembly.program.owners.push owner⟩ }

def declareFunction (assembly : Assembly) (signature : Signature) : Except Fault Assembly := do
  return { assembly with declarations := ← assembly.declarations.declareFunction signature }

/-- Gives a declared function its body. -/
def define (assembly : Assembly) (path : Path) (body : Term) : Except Fault Assembly := do
  let some signature := assembly.declarations.functions[path]?
    | throw (.undeclaredDefinition path)
  return assembly.addOwner
    (← Function.ofTerm assembly.declarations assembly.nextOwner signature body)

def add (assembly : Assembly) : Item → Except Fault Assembly
  | .forward _ => return assembly
  | .aggregate layout name members => do
      let path := Path.ofString name
      let declarations ← assembly.declarations.declareAggregate { path, layout, members }
      return { assembly with declarations }.addOwner
        { id := assembly.nextOwner, kind := .aggregate layout path, nodes := .empty }
  | .signature name parameters returns =>
      assembly.declareFunction { path := .ofString name, parameters, returns }
  | .function name parameters returns body => do
      let path := Path.ofString name
      (← assembly.declareFunction { path, parameters, returns }).define path body
  | .define name body => assembly.define (.ofString name) body

end Assembly

/-- The program that items describe, with its declarations. -/
def ofItems (items : List Item) : Except Fault Assembly :=
  items.foldlM Assembly.add {}

end Program

end Regions
