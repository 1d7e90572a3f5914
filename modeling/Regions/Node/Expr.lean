import Regions.Source
import Regions.Text.Quoted
import Regions.Ty
import Regions.Node.Id

/-!
# Expressions

An expression refers to its operands by node identifier. `Expr.children` lists them in the order
in which they are evaluated.
-/

namespace Regions

inductive Literal
  | void
  | int (value : Int)
  | bool (value : Bool)
  deriving DecidableEq, Repr

inductive UnaryOp
  | not
  | negate
  deriving DecidableEq, Repr

inductive BinaryOp
  | add
  | subtract
  | multiply
  | divide
  | modulus
  | equals
  | notEquals
  | lessThan
  | lessThanOrEqualTo
  | greaterThan
  | greaterThanOrEqualTo
  | logicalAnd
  | logicalOr
  | xor
  deriving DecidableEq, Repr

inductive Expr
  | literal (value : Literal)
  /-- Reads a variable, or names it where a place is wanted. -/
  | var (path : Path)
  | addressOf (target : NodeId)
  | dereference (target : NodeId)
  | memberAccess (target : NodeId) (member : String)
  | index (target subscript : NodeId)
  /-- Allocates on the heap; the node's type is a pointer to the allocated type. -/
  | new (initializer : Option NodeId)
  | structLiteral (fields : List (String × NodeId))
  | unary (op : UnaryOp) (operand : NodeId)
  | binary (op : BinaryOp) (lhs rhs : NodeId)
  | call (function : Path) (arguments : List NodeId)
  /-- A block has the value of its last statement. -/
  | block (statements : List NodeId)
  | declaration (path : Path) (value : NodeId)
  | assignment (target value : NodeId)
  | cond (condition positive : NodeId) (negative : Option NodeId)
  | loop (condition body : NodeId)
  | breakLoop
  | continueLoop
  deriving DecidableEq, Repr

/-- An expression with its type and its place in the source text. -/
structure Node where
  expr : Expr
  ty : Ty
  span : Span
  deriving DecidableEq, Repr

/-! ## Operators -/

def UnaryOp.symbol : UnaryOp → String
  | .not => "!"
  | .negate => "-"

def UnaryOp.listing : UnaryOp → String
  | .not => "Not"
  | .negate => "Negate"

namespace BinaryOp

def symbol : BinaryOp → String
  | .add => "+"
  | .subtract => "-"
  | .multiply => "*"
  | .divide => "/"
  | .modulus => "%"
  | .equals => "=="
  | .notEquals => "!="
  | .lessThan => "<"
  | .lessThanOrEqualTo => "<="
  | .greaterThan => ">"
  | .greaterThanOrEqualTo => ">="
  | .logicalAnd => "&&"
  | .logicalOr => "||"
  | .xor => "^"

def listing : BinaryOp → String
  | .add => "Add"
  | .subtract => "Subtract"
  | .multiply => "Multiply"
  | .divide => "Divide"
  | .modulus => "Modulus"
  | .equals => "Equals"
  | .notEquals => "NotEquals"
  | .lessThan => "LessThan"
  | .lessThanOrEqualTo => "LessThanOrEqualTo"
  | .greaterThan => "GreaterThan"
  | .greaterThanOrEqualTo => "GreaterThanOrEqualTo"
  | .logicalAnd => "LogicalAnd"
  | .logicalOr => "LogicalOr"
  | .xor => "Xor"

/-- Whether the result is a truth value whatever the operands are. -/
def isBoolean : BinaryOp → Bool
  | .equals | .notEquals | .lessThan | .lessThanOrEqualTo | .greaterThan
  | .greaterThanOrEqualTo | .logicalAnd | .logicalOr => true
  | .add | .subtract | .multiply | .divide | .modulus | .xor => false

end BinaryOp

/-! ## Structure of expressions -/

namespace Expr

/-- The operands, in the order in which they are evaluated. -/
def children : Expr → List NodeId
  | .literal _ | .var _ | .breakLoop | .continueLoop => []
  | .addressOf target | .dereference target | .memberAccess target _ => [target]
  | .index target subscript => [target, subscript]
  | .new initializer => initializer.toList
  | .structLiteral fields => fields.map Prod.snd
  | .unary _ operand => [operand]
  | .binary _ lhs rhs => [lhs, rhs]
  | .call _ arguments => arguments
  | .block statements => statements
  | .declaration _ value => [value]
  | .assignment target value => [target, value]
  | .cond condition positive negative => condition :: positive :: negative.toList
  | .loop condition body => [condition, body]

/-- Whether the expression may be assigned to or have its address taken. -/
def isPlace : Expr → Bool
  | .var _ | .dereference _ | .memberAccess _ _ | .index _ _ => true
  | _ => false

/-! ## Listings -/

def optionListing : Option NodeId → String
  | none => "None"
  | some id => "Some(" ++ id.listing ++ ")"

/-- A constructor with named parts. -/
def recordListing (name : String) (parts : List (String × String)) : String :=
  name ++ " \x7b " ++ ", ".intercalate (parts.map fun (key, value) => key ++ ": " ++ value) ++
    " \x7d"

/-- The expression spelled out constructor by constructor. -/
def listing : Expr → String
  | .literal .void => "Literal(Void)"
  | .literal (.int value) => "Literal(Int(" ++ toString value ++ "))"
  | .literal (.bool value) => "Literal(Bool(" ++ toString value ++ "))"
  | .var path => "Variable(" ++ path.quoted ++ ")"
  | .addressOf target => "AddressOf(" ++ target.listing ++ ")"
  | .dereference target => "Dereference(" ++ target.listing ++ ")"
  | .memberAccess target member =>
      recordListing "MemberAccess"
        [("target", target.listing), ("member", symbolListing member)]
  | .index target subscript =>
      recordListing "Index" [("target", target.listing), ("index", subscript.listing)]
  | .new initializer => recordListing "New" [("initializer", optionListing initializer)]
  | .structLiteral fields =>
      recordListing "StructLiteral"
        [("fields", listingOf (fields.map fun (name, value) =>
          "(" ++ symbolListing name ++ ", " ++ value.listing ++ ")"))]
  | .unary op operand =>
      recordListing "Unary" [("operator", op.listing), ("operand", operand.listing)]
  | .binary op lhs rhs =>
      recordListing "Binary"
        [("operator", op.listing), ("lhs", lhs.listing), ("rhs", rhs.listing)]
  | .call function arguments =>
      recordListing "Call"
        [("function", function.quoted), ("arguments", listingOf (arguments.map NodeId.listing))]
  | .block statements => "Block(" ++ listingOf (statements.map NodeId.listing) ++ ")"
  | .declaration path value =>
      recordListing "VariableDeclaration" [("path", path.quoted), ("value", value.listing)]
  | .assignment target value =>
      recordListing "Assignment" [("target", target.listing), ("value", value.listing)]
  | .cond condition positive negative =>
      recordListing "If"
        [("condition", condition.listing), ("positive", positive.listing),
         ("negative", optionListing negative)]
  | .loop condition body =>
      recordListing "While" [("condition", condition.listing), ("body", body.listing)]
  | .breakLoop => "Break"
  | .continueLoop => "Continue"
where
  symbolListing (name : String) : String := "InternedSymbol(" ++ Text.quote name ++ ")"

end Expr

end Regions
