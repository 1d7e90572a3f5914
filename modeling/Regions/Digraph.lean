import Std.Data.ExtTreeMap
import Std.Data.ExtTreeSet

/-!
# Finite directed graphs

A graph maps each vertex to the set of its successors.

- `Digraph.closure G agenda a`: what a search from `a` along the edges finds, `a` itself apart.
- `Digraph.mutualClosure G agenda a`: the same along the edges that run both ways.

A search keeps the vertices that it has found, and a list of those that it still has to look at.
A vertex is listed once, when it is found; only the start is listed without being found. So the
search ends: each round takes a vertex off the list, and each vertex that it lists is the end of
an edge that was not found before (`Digraph.unfound`).
-/

namespace Regions

structure Digraph (α : Type) [Ord α] where
  successors : Std.ExtTreeMap α (Std.ExtTreeSet α)

namespace Digraph

variable {α : Type} [Ord α] [Std.TransOrd α]

def empty : Digraph α := ⟨∅⟩

instance : EmptyCollection (Digraph α) := ⟨empty⟩

/-- The vertices that an edge from `a` leads to. -/
def targets (G : Digraph α) (a : α) : Std.ExtTreeSet α :=
  G.successors.getD a ∅

def insert (G : Digraph α) (a b : α) : Digraph α :=
  ⟨G.successors.insert a ((G.targets a).insert b)⟩

/-- The graph has an edge from `a` to `b`. -/
def Adj (G : Digraph α) (a b : α) : Prop := b ∈ G.targets a

instance (G : Digraph α) (a b : α) : Decidable (G.Adj a b) :=
  inferInstanceAs (Decidable (b ∈ G.targets a))

def edges (G : Digraph α) : List (α × α) :=
  G.successors.toList.flatMap fun (a, targets) => targets.toList.map fun b => (a, b)

theorem adj_iff {G : Digraph α} {a b : α} :
    G.Adj a b ↔ ∃ targets, G.successors[a]? = some targets ∧ b ∈ targets := by
  simp only [Adj, targets, Std.ExtTreeMap.getD_eq_getD_getElem?]
  cases G.successors[a]? <;> simp

theorem mem_edges_iff [Std.LawfulEqOrd α] {G : Digraph α} {a b : α} :
    (a, b) ∈ G.edges ↔ G.Adj a b := by
  simp only [edges, List.mem_flatMap, Prod.exists, Std.ExtTreeMap.mem_toList_iff_getElem?_eq_some,
    List.mem_map, Std.ExtTreeSet.mem_toList, Prod.mk.injEq, adj_iff]
  constructor
  · rintro ⟨c, targets, hc, d, hd, rfl, rfl⟩
    exact ⟨targets, hc, hd⟩
  · rintro ⟨targets, ha, hb⟩
    exact ⟨a, targets, ha, b, hb, rfl, rfl⟩

/-! ## Searches -/

/-- How a search lists what it finds: at the end of a queue, or on top of a stack. The vertex at
the head of the list is looked at next. -/
inductive Agenda
  | queue
  | stack
  deriving DecidableEq, Repr

def Agenda.add : Agenda → α → List α → List α
  | .queue, a, work => work ++ [a]
  | .stack, a, work => a :: work

omit [Ord α] [Std.TransOrd α] in
@[simp] theorem Agenda.mem_add {agenda : Agenda} {a x : α} {work : List α} :
    x ∈ agenda.add a work ↔ x = a ∨ x ∈ work := by
  cases agenda <;> simp [Agenda.add, or_comm]

omit [Ord α] [Std.TransOrd α] in
@[simp] theorem Agenda.length_add {agenda : Agenda} {a : α} {work : List α} :
    (agenda.add a work).length = work.length + 1 := by
  cases agenda <;> simp [Agenda.add]

/-- What a search has found, and what of it the search still has to look at. -/
structure Search (α : Type) [Ord α] where
  found : Std.ExtTreeSet α
  work : List α

/-- A successor is found where the search follows the edge to it, unless it was found before. -/
def Search.find (agenda : Agenda) (follow : α → Bool) (search : Search α) (b : α) :
    Search α :=
  if follow b = true ∧ b ∉ search.found then
    ⟨search.found.insert b, agenda.add b search.work⟩
  else
    search

/-- One round of a search: it looks at all successors of `a`. -/
def lookAt (G : Digraph α) (agenda : Agenda) (follow : α → α → Bool) (a : α)
    (search : Search α) : Search α :=
  (G.targets a).toList.foldl (Search.find agenda (follow a)) search

/-- The number of edges that lead to vertices outside `found`. -/
def unfound (G : Digraph α) (found : Std.ExtTreeSet α) : Nat :=
  G.edges.countP fun edge => edge.2 ∉ found

/-- Each vertex that a search lists is the end of an edge, and is listed once. -/
theorem unfound_find_add_length_le [Std.LawfulEqOrd α] {G : Digraph α} {agenda : Agenda}
    {follow : α → Bool} {a b : α} (h : G.Adj a b) (search : Search α) :
    G.unfound (search.find agenda follow b).found + (search.find agenda follow b).work.length ≤
      G.unfound search.found + search.work.length := by
  unfold Search.find
  split
  · rename_i hfound
    obtain ⟨front, back, hedges⟩ := List.append_of_mem (mem_edges_iff.2 h)
    have hle : ∀ edges : List (α × α),
      edges.countP (fun edge => edge.2 ∉ search.found.insert b) ≤
        edges.countP fun edge => edge.2 ∉ search.found := by
      intro edges
      apply List.countP_mono_left
      simp +contextual
    have hlt : G.unfound (search.found.insert b) < G.unfound search.found := by
      have hfront := hle front
      have hback := hle back
      simp only [unfound, hedges, List.countP_append, List.countP_cons, hfound.2]
      simp only [Std.ExtTreeSet.mem_insert_self, not_true_eq_false, decide_false, not_false_eq_true,
        decide_true, reduceIte, Bool.false_eq_true]
      omega
    simp only [Agenda.length_add]
    omega
  · exact Nat.le_refl _

theorem unfound_lookAt_add_length_le [Std.LawfulEqOrd α] (G : Digraph α) (agenda : Agenda)
    (follow : α → α → Bool) (a : α) (search : Search α) :
    G.unfound (G.lookAt agenda follow a search).found +
        (G.lookAt agenda follow a search).work.length ≤
      G.unfound search.found + search.work.length := by
  have hfold : ∀ (bs : List α) (search : Search α), (∀ b ∈ bs, G.Adj a b) →
      G.unfound (bs.foldl (Search.find agenda (follow a)) search).found +
          (bs.foldl (Search.find agenda (follow a)) search).work.length ≤
        G.unfound search.found + search.work.length := by
    intro bs
    induction bs with
    | nil => exact fun search _ => Nat.le_refl _
    | cons b bs ih =>
        intro search hadj
        exact Nat.le_trans (ih _ fun c hc => hadj c (List.mem_cons_of_mem _ hc))
          (unfound_find_add_length_le (hadj b List.mem_cons_self) search)
  exact hfold _ search fun b hb => Std.ExtTreeSet.mem_toList.1 hb

/-- Looks at the listed vertices, and at all that are found on the way. -/
def explore [Std.LawfulEqOrd α] (G : Digraph α) (agenda : Agenda) (follow : α → α → Bool)
    (found : Std.ExtTreeSet α) : List α → Std.ExtTreeSet α
  | [] => found
  | a :: work =>
      let next := G.lookAt agenda follow a ⟨found, work⟩
      G.explore agenda follow next.found next.work
termination_by work => G.unfound found + work.length
decreasing_by
  have hle := G.unfound_lookAt_add_length_le agenda follow a ⟨found, work⟩
  exact Nat.lt_succ_of_le hle

/-- What a search from `a` finds along the edges that it follows, `a` itself apart. -/
def search [Std.LawfulEqOrd α] (G : Digraph α) (agenda : Agenda) (follow : α → α → Bool)
    (a : α) : Std.ExtTreeSet α :=
  (G.explore agenda follow ∅ [a]).erase a

/-- What can be reached from `a`, `a` itself apart. -/
def closure [Std.LawfulEqOrd α] (G : Digraph α) (agenda : Agenda) (a : α) : Std.ExtTreeSet α :=
  G.search agenda (fun _ _ => true) a

/-- What can be reached from `a` along edges that run both ways, `a` itself apart. -/
def mutualClosure [Std.LawfulEqOrd α] (G : Digraph α) (agenda : Agenda) (a : α) :
    Std.ExtTreeSet α :=
  G.search agenda (fun next partner => G.Adj partner next) a

end Digraph

end Regions
