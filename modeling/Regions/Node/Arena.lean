import Regions.Fault

/-!
# Arenas

An arena holds one value for each node of an owner. Values are added at the end and found by
node identifier.
-/

namespace Regions

structure Arena (α : Type) where
  items : Array α
  deriving DecidableEq, Repr

namespace Arena

variable {α : Type}

def empty : Arena α := ⟨#[]⟩

def ofList (values : List α) : Arena α := ⟨values.toArray⟩

/-- The same value for each of the first `n` nodes. -/
def replicate (n : Nat) (value : α) : Arena α := ⟨Array.replicate n value⟩

def size (arena : Arena α) : Nat := arena.items.size

def isEmpty (arena : Arena α) : Bool := arena.items.isEmpty

/-- The identifier that the next added value gets. -/
def nextId (arena : Arena α) : NodeId := ⟨arena.size⟩

def push (arena : Arena α) (value : α) : Arena α := ⟨arena.items.push value⟩

def get? (arena : Arena α) (id : NodeId) : Option α := arena.items[id.index]?

/-- The value of a node that has to be there. -/
def get (arena : Arena α) (id : NodeId) : Except Fault α :=
  match arena.get? id with
  | some value => .ok value
  | none => .error (.outOfRange id)

/-- Replaces the value of a node that has to be there. -/
def set (arena : Arena α) (id : NodeId) (value : α) : Except Fault (Arena α) :=
  if id.index < arena.size then
    .ok ⟨arena.items.setIfInBounds id.index value⟩
  else
    .error (.outOfRange id)

def toList (arena : Arena α) : List α := arena.items.toList

def ids (arena : Arena α) : List NodeId := (List.range arena.size).map NodeId.mk

/-- The values with their identifiers, in order. -/
def entries (arena : Arena α) : List (NodeId × α) := arena.ids.zip arena.toList

/-! ## Lookups after each operation -/

theorem get?_push (arena : Arena α) (value : α) (id : NodeId) :
    (arena.push value).get? id = if id = arena.nextId then some value else arena.get? id := by
  obtain ⟨index⟩ := id
  simp [get?, push, nextId, size, Array.getElem?_push]

@[simp] theorem size_push (arena : Arena α) (value : α) :
    (arena.push value).size = arena.size + 1 := by
  simp [size, push]

theorem get?_eq_none_iff {arena : Arena α} {id : NodeId} :
    arena.get? id = none ↔ arena.size ≤ id.index := by
  simp [get?, size]

theorem get?_set {arena after : Arena α} {id : NodeId} {value : α}
    (h : arena.set id value = .ok after) (other : NodeId) :
    after.get? other = if other = id then some value else arena.get? other := by
  obtain ⟨index⟩ := id
  obtain ⟨i⟩ := other
  unfold set size at h
  split at h
  · rename_i hlt
    cases h
    simp only [get?, Array.getElem?_setIfInBounds, NodeId.mk.injEq, @eq_comm _ index i]
    split <;> simp_all
  · cases h

end Arena

end Regions
