import Regions.Node.Expr

/-!
# Faults

A fault is a mistake in how the library is used: a malformed program, or a query about
something that is not there. It is not a finding about the analysed program; those are
violations. `Fault.message?` has the wording. Faults that stop the work without a word have no
message.
-/

namespace Regions

inductive Fault
  -- Declarations
  | duplicateAggregate (path : Path)
  | duplicateFunction (path : Path)
  | undeclaredAggregate (path : Path)
  -- Construction of bodies
  | undeclaredDefinition (function : Path)
  | bodyType (function : Path) (body returns : Ty)
  | notBuilt (id : NodeId)
  | duplicateVariable (name : String)
  | unresolvedVariable (name : String)
  | notAPlace (id : NodeId) (expr : Expr)
  | notAPointer (ty : Ty)
  | notAnArray (ty : Ty)
  | noMember (ty : Ty) (name : String)
  | notNegatable (ty : Ty)
  | badOperand (op : BinaryOp) (ty : Ty)
  | undeclaredCallee (function : Path)
  | argumentCount (function : Path) (expected given : Nat)
  | assignmentType (value target : Ty)
  -- Programs
  | missingOwner (owner : OwnerId)
  | missingNode (owner : OwnerId) (id : NodeId)
  -- Frames
  | undeclaredBinding (path : Path)
  | hiddenBinding (path : Path)
  -- Flow analysis
  | recordedTwice (id : NodeId)
  | lifetimesTooEarly (id : NodeId)
  | escapingTooEarly (id : NodeId)
  | noWholeValue (id : NodeId) (ty : Ty)
  | cannotBePlace (expr : Expr)
  | initializerMember (declared member : Path)
  | assignmentMember (id : NodeId) (member : Path)
  | noStorage (id : NodeId)
  | noSignature (function : Path)
  | noMemberLifetimes (member : String) (target : NodeId)
  | outsideLoop (expr : Expr)
  | incomplete (nodes : List NodeRef)
  -- Queries
  | lifetimesNotVisited (node : NodeRef)
  | escapingNotVisited (node : NodeRef)
  -- Faults without a message
  | outOfRange (id : NodeId)
  | memberCount (id : NodeId)
  | insideCharacter
  | cyclicBody
  | unknownLabel (label : String)
  deriving DecidableEq, Repr

namespace Fault

/-- The wording of a fault, if it has one. -/
def message? (styling : Styling) : Fault → Option String
  | .duplicateAggregate path =>
      some ("aggregate " ++ path.quoted ++ " was declared twice")
  | .duplicateFunction path =>
      some ("function " ++ path.quoted ++ " was declared twice")
  | .undeclaredAggregate path =>
      some ("type " ++ path.quoted ++ " refers to an undeclared aggregate")
  | .undeclaredDefinition function =>
      some ("tried to define undeclared function " ++ function.quoted)
  | .bodyType function body returns =>
      some ("body of " ++ function.quoted ++ " has type " ++ body.styled styling ++
        " but the signature returns " ++ returns.styled styling)
  | .notBuilt id => some ("node " ++ id.listing ++ " has not been built yet")
  | .duplicateVariable name =>
      some ("`" ++ name ++ "` was declared twice in the same scope")
  | .unresolvedVariable name => some ("unresolved variable `" ++ name ++ "`")
  | .notAPlace id expr =>
      some ("expression " ++ id.listing ++ " is not a place: " ++ expr.listing)
  | .notAPointer ty => some ("cannot dereference non-pointer type " ++ ty.styled styling)
  | .notAnArray ty => some ("cannot index non-array type " ++ ty.styled styling)
  | .noMember ty name =>
      some ("type " ++ ty.styled styling ++ " has no member `" ++ name ++ "`")
  | .notNegatable ty => some ("cannot negate " ++ ty.styled styling)
  | .badOperand op ty =>
      some ("operator " ++ op.symbol ++ " cannot be applied to " ++ ty.styled styling)
  | .undeclaredCallee function => some ("call to undeclared function " ++ function.quoted)
  | .argumentCount function expected given =>
      some (function.quoted ++ " takes " ++ toString expected ++ " argument(s) but " ++
        toString given ++ " were given")
  | .assignmentType value target =>
      some ("cannot assign " ++ value.styled styling ++ " to a place of type " ++
        target.styled styling)
  | .missingOwner owner =>
      some ("owner " ++ owner.listing ++ " does not exist in this module")
  | .missingNode owner id =>
      some ("node " ++ id.listing ++ " does not exist in owner " ++ owner.listing)
  | .undeclaredBinding path =>
      some ("looked up the lifetimes of " ++ path.quoted ++ ", which was never declared")
  | .hiddenBinding path =>
      some ("tried to rebind " ++ path.quoted ++ ", which is not visible in this scope")
  | .recordedTwice id => some ("lifetimes of node " ++ id.listing ++ " were recorded twice")
  | .lifetimesTooEarly id =>
      some ("lifetimes of node " ++ id.listing ++ " were used before its flow was analyzed")
  | .escapingTooEarly id =>
      some ("escaping variables of node " ++ id.listing ++
        " were used before its flow was analyzed")
  | .noWholeValue id ty =>
      some ("node " ++ id.listing ++ " of type " ++ ty.styled styling ++
        " has no whole-value lifetimes")
  | .cannotBePlace expr => some (expr.listing ++ " cannot be used as a place")
  | .initializerMember declared member =>
      some ("initializer of " ++ declared.quoted ++ " has no lifetimes for member " ++
        member.quoted)
  | .assignmentMember id member =>
      some ("assignment " ++ id.listing ++ " is missing lifetimes for member " ++ member.quoted)
  | .noStorage id =>
      some ("place " ++ id.listing ++ " has no storage location to take the address of")
  | .noSignature function =>
      some ("call to " ++ function.quoted ++ ", which has no signature")
  | .noMemberLifetimes member target =>
      some ("member `" ++ member ++ "` of node " ++ target.listing ++ " has no lifetimes")
  | .outsideLoop expr => some (expr.listing ++ " outside of a loop reached flow analysis")
  | .incomplete nodes =>
      some ("flow analysis left nodes without lifetimes: " ++
        listingOf (nodes.map NodeRef.listing))
  | .lifetimesNotVisited node =>
      some ("requested the lifetimes of node " ++ node.text ++ " before flow analysis visited it")
  | .escapingNotVisited node =>
      some ("requested the escaping variables of node " ++ node.text ++
        " before flow analysis visited it")
  | .outOfRange _ | .memberCount _ | .insideCharacter | .cyclicBody | .unknownLabel _ => none

end Fault

end Regions
