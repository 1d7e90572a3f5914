import Std.Data.ExtTreeSet

/-!
# Identifiers of nodes and their owners

Every top-level declaration of a program owns its expression nodes. A node is found by its
index within its owner; `NodeRef` names a node of the whole program.
-/

namespace Regions

/-- Identifiers are words of 32 bits; larger numbers lose their high bits. -/
def idModulus : Nat := 4294967296

/-- The index of a node within its owner. -/
structure NodeId where
  index : Nat
  deriving DecidableEq, Repr, Inhabited

/-- The index of a top-level declaration. -/
structure OwnerId where
  index : Nat
  deriving DecidableEq, Repr, Inhabited

/-- A node of the whole program. -/
structure NodeRef where
  owner : OwnerId
  node : NodeId
  deriving DecidableEq, Repr

namespace NodeId

def ofNat (n : Nat) : NodeId := ⟨n % idModulus⟩

def listing (id : NodeId) : String :=
  "ItemLocalId(" ++ toString id.index ++ ")"

end NodeId

namespace OwnerId

def ofNat (n : Nat) : OwnerId := ⟨n % idModulus⟩

def listing (id : OwnerId) : String :=
  "LocalDefId(" ++ toString id.index ++ ")"

end OwnerId

namespace NodeRef

/-- Owner and node, divided by a point. -/
def text (ref : NodeRef) : String :=
  toString ref.owner.index ++ "." ++ toString ref.node.index

def listing (ref : NodeRef) : String :=
  "HirId \x7b owner: " ++ ref.owner.listing ++ ", local_id: " ++ ref.node.listing ++ " \x7d"

/-! ## Order: by owner, then by node -/

instance : Ord NodeRef :=
  ⟨compareLex (compareOn fun ref => ref.owner.index) (compareOn fun ref => ref.node.index)⟩

instance : Std.TransOrd NodeRef :=
  inferInstanceAs (Std.TransCmp (compareLex (compareOn fun ref : NodeRef => ref.owner.index)
      (compareOn fun ref => ref.node.index)))

end NodeRef

/-- A bracketed list of listings. -/
def listingOf (parts : List String) : String :=
  "[" ++ ", ".intercalate parts ++ "]"

end Regions
