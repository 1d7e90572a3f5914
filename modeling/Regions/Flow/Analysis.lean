import Regions.Flow.Branch
import Regions.Flow.Call
import Regions.Flow.Indirection
import Regions.Flow.Loop
import Regions.Flow.Record
import Regions.Flow.Variable

/-!
# The analysis

`rule` says what the analysis does at a node, given a way to have its operands analysed;
`analyzeNode` ties the rules together. Every node is analysed once: a node that is used again
keeps its result, whatever position it is then used in.
-/

namespace Regions.Flow

/-- A node that stands for its value. -/
def valueRule (env : Env) (recur : Recur) (id : NodeId) : Expr → FlowM Unit
  | .literal _ => operator env recur id []
  | .var path => readVariable env id path
  | .addressOf target => addressOf env recur id target
  | .dereference target => dereference env recur .value id target
  | .memberAccess target member => readMember env recur id target member
  | .index target subscript => index env recur .value id target subscript
  | .new initializer => allocate env recur id initializer
  | .structLiteral fields => structLiteral env recur id fields
  | .unary _ operand => operator env recur id [operand]
  | .binary _ lhs rhs => operator env recur id [lhs, rhs]
  | .call function arguments => call env recur id function arguments
  | .block statements => block env recur id statements
  | .declaration path value => declareVariable env recur id path value
  | .assignment target value => assign env recur id target value
  | .cond condition positive negative => cond env recur id condition positive negative
  | .loop condition body => loop env recur id condition body
  | .breakLoop | .continueLoop => leaveIteration env id

/-- A node that names its storage. -/
def placeRule (env : Env) (recur : Recur) (id : NodeId) : Expr → FlowM Unit
  | .var path => nameVariable env id path
  | .dereference target => dereference env recur .place id target
  | .memberAccess target member => nameMember env recur id target member
  | .index target subscript => index env recur .place id target subscript
  | expr => throw (.fault (.cannotBePlace expr))

def rule (env : Env) (recur : Recur) (position : Position) (id : NodeId) (expr : Expr) :
    FlowM Unit :=
  match position with
  | .value => valueRule env recur id expr
  | .place => placeRule env recur id expr

/-- Analyses a node unless it has a result. A chain of operands longer than the depth comes back
to itself. -/
def analyzeNode (env : Env) : Nat → Recur
  | 0, _, _ => throw (.fault .cyclicBody)
  | depth + 1, position, id => do
      unless (← flowOf? id).isSome do
        let node ← env.node id
        rule env (analyzeNode env depth) position id node.expr

/-- Analyses a function: its parameters, its body, and what it returns. -/
def analyzeFunction (env : Env) (function : Function) : FlowM Unit := do
  declareParameters env function.parameters
  analyzeNode env env.owner.depth .value function.body
  unless function.returns.isVoid do
    checkReturn env function

abbrev OwnerFlow := Arena (Option NodeFlow)

/-- Analyses a function on top of what is already known. -/
def runFunction (decls : Declarations) (options : Options) (context : Context) (owner : Owner)
    (function : Function) : Except Abort (Context × OwnerFlow) :=
  let env : Env := { declarations := decls, options, owner, scope := function.path }
  match (analyzeFunction env function).run (.start context owner.nodes.size) with
  | .ok _ state => .ok (state.context, state.recorded)
  | .error abort _ => .error abort

end Regions.Flow
