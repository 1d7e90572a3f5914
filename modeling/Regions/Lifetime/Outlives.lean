import Regions.Digraph.Reachability
import Regions.Lifetime
import Regions.Ty

/-!
# The outlives graph

When data is stored in a container, the data has to last at least as long as the container
does. The graph collects these obligations between lifetimes, and answers what each lifetime
depends on.

- `Outlives.store`: data is stored in a container.
- `Outlives.unify`: two lifetimes stand for the same data.
- `Outlives.supportOf`: everything that a lifetime rests on, because it has to last as long.
- `Outlives.equivalents`: everything that stands for the same data.
- `Outlives.rootsOf`: the regions of storage that a lifetime rests on, the heap apart.
-/

namespace Regions

/-- The storing of data, by its lifetime, in a container. -/
structure Storing where
  stored : Lifetime
  container : Lifetime
  deriving DecidableEq, Repr

namespace Storing

/-- By the data, then by the container. -/
def comparison : Storing → Storing → Ordering :=
  compareLex (compareOn stored) (compareOn container)

instance : Ord Storing := ⟨comparison⟩

instance : Std.TransOrd Storing := by
  unfold Std.TransOrd
  change Std.TransCmp comparison
  unfold comparison
  infer_instance

instance : Std.LawfulEqOrd Storing where
  eq_of_compare := by
    rintro ⟨s, c⟩ ⟨s', c'⟩ h
    have h : comparison _ _ = .eq := h
    simp only [comparison, compareLex, compareOn, Ordering.then_eq_eq] at h
    cases Std.LawfulEqCmp.eq_of_compare h.1
    cases Std.LawfulEqCmp.eq_of_compare h.2
    rfl

end Storing

/-- The obligations between lifetimes. -/
structure Outlives where
  /-- An edge runs from each container to what is stored in it. -/
  contents : Digraph Lifetime
  /-- The type of the stored data, where it is known. -/
  types : Std.ExtTreeMap Storing Ty
  /-- The number of edges, counted as they are recorded. -/
  edgeCount : Nat

namespace Outlives

variable {graph : Outlives}

def empty : Outlives := ⟨∅, ∅, 0⟩

instance : EmptyCollection Outlives := ⟨empty⟩

/-- Records that data is stored in a container. Nothing is recorded for data that refers to
nothing, for a container that is no storage, or for a lifetime stored in itself. The first type
recorded for a storing stays, and only a new storing counts. -/
def store (graph : Outlives) (stored container : Lifetime) (ty? : Option Ty := none) : Outlives :=
  if stored = container ∨ stored.isNone ∨ container.isNone then
    graph
  else
    { contents := graph.contents.insert container stored
      types :=
        match ty? with
        | some ty => graph.types.insertIfNew ⟨stored, container⟩ ty
        | none => graph.types
      edgeCount :=
        if graph.contents.Adj container stored then graph.edgeCount else graph.edgeCount + 1 }

/-- Records that two lifetimes stand for the same data: each is stored in the other. -/
def unify (graph : Outlives) (a b : Lifetime) : Outlives :=
  (graph.store a b).store b a

/-- Everything that has to last as long as `l` does, `l` itself apart. -/
def supportOf (graph : Outlives) (l : Lifetime) : LifetimeSet :=
  graph.contents.closure .queue l

/-- Everything that stands for the same data as `l`, `l` itself apart. -/
def equivalents (graph : Outlives) (l : Lifetime) : LifetimeSet :=
  graph.contents.mutualClosure .queue l

/-- Whether `a` is known to last at least as long as `b`. -/
def outlives (graph : Outlives) (a b : Lifetime) : Bool :=
  a.isHeap || (graph.supportOf b).contains a

/-- The regions of storage that `l` rests on. The heap is none of them: it never ends. -/
def rootsOf (graph : Outlives) (l : Lifetime) : LifetimeSet :=
  ((graph.supportOf l).insert l).filter fun m => m.isRoot && !m.isHeap && !m.isNone

/-- The type of the data of a storing, where it is known. -/
def storedType? (graph : Outlives) (stored container : Lifetime) : Option Ty :=
  graph.types[(⟨stored, container⟩ : Storing)]?

/-! ## Edges -/

/-- The data `stored` is recorded in `container`. -/
def Holds (graph : Outlives) (container stored : Lifetime) : Prop :=
  graph.contents.Adj container stored

/-- A storing that says something: between two lifetimes of storage that differ. -/
def Relevant (stored container : Lifetime) : Prop :=
  stored ≠ container ∧ stored.isNone = false ∧ container.isNone = false

theorem holds_store_iff {stored container : Lifetime} {ty? : Option Ty} {c s : Lifetime} :
    (graph.store stored container ty?).Holds c s ↔
      (c = container ∧ s = stored ∧ Relevant stored container) ∨ graph.Holds c s := by
  unfold store Holds Relevant
  split
  · rename_i h
    constructor
    · exact .inr
    · rintro (⟨rfl, rfl, hne, hs, hc⟩ | h')
      · rcases h with h | h | h
        · exact absurd h hne
        · simp [hs] at h
        · simp [hc] at h
      · exact h'
  · rename_i h
    simp only [not_or, Bool.not_eq_true] at h
    rw [Digraph.adj_insert_iff]
    simp [h]

theorem mem_supportOf_iff {k l : Lifetime} :
    k ∈ graph.supportOf l ↔ k ≠ l ∧ Relation.TransGen graph.Holds l k :=
  Digraph.mem_closure_iff

/-- Each of the lifetimes is stored in the other. -/
def Linked (graph : Outlives) (a b : Lifetime) : Prop :=
  graph.Holds a b ∧ graph.Holds b a

theorem mem_equivalents_iff {k l : Lifetime} :
    k ∈ graph.equivalents l ↔ k ≠ l ∧ Relation.TransGen graph.Linked l k :=
  Digraph.mem_mutualClosure_iff

/-- A storing links the two lifetimes if the opposite storing is there, and no others. -/
theorem linked_store_iff {stored container a b : Lifetime} {ty? : Option Ty} :
    (graph.store stored container ty?).Linked a b ↔ graph.Linked a b ∨
      graph.Holds stored container ∧ Relevant stored container ∧
        (a = container ∧ b = stored ∨ a = stored ∧ b = container) := by
  simp only [Linked, holds_store_iff, Relevant]
  grind

end Outlives

end Regions
