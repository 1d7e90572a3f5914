import Regions.Digraph

/-!
# Edges and walks

What inserting does to the edges, and that a search finds exactly what walks reach, in whichever
order it looks at the vertices:

- `Digraph.adj_insert_iff`: the edges.
- `Digraph.Explored`: what holds of a search before and after each round.
- `Digraph.mem_search_iff`: the search against `Relation.TransGen`.
- `Digraph.mem_closure_iff`, `Digraph.mem_mutualClosure_iff`: the two closures.
-/

namespace Regions
namespace Digraph

variable {α : Type} [Ord α] [Std.TransOrd α]

/-! ## Edges -/

@[simp] theorem not_adj_empty (a b : α) : ¬ (empty : Digraph α).Adj a b := by
  simp [Adj, targets, empty]

variable [Std.LawfulEqOrd α]

/-- Inserting an edge adds that edge and no other. -/
theorem adj_insert_iff {G : Digraph α} {a b x y : α} :
    (G.insert a b).Adj x y ↔ (x = a ∧ y = b) ∨ G.Adj x y := by
  simp only [Adj, targets, insert, Std.ExtTreeMap.getD_insert, Std.compare_eq_iff_eq]
  by_cases h : a = x
  · subst h
    simp [@eq_comm _ b y]
  · simp [h, Ne.symm h]

/-! ## Rounds of a search -/

variable {G : Digraph α} {agenda : Agenda} {follow : α → α → Bool} {a b x : α}

/-- After a round, what the search follows from `a` is found, and no more. Of that, what is new is
listed. -/
theorem mem_lookAt_iff {search : Search α} : (x ∈ (G.lookAt agenda follow a search).found ↔
      x ∈ search.found ∨ G.Adj a x ∧ follow a x = true) ∧
    (x ∈ (G.lookAt agenda follow a search).work ↔
      x ∈ search.work ∨ (G.Adj a x ∧ follow a x = true) ∧ x ∉ search.found) := by
  have hfold : ∀ (bs : List α) (search : Search α),
      (x ∈ (bs.foldl (Search.find agenda (follow a)) search).found ↔
        x ∈ search.found ∨ x ∈ bs ∧ follow a x = true) ∧
      (x ∈ (bs.foldl (Search.find agenda (follow a)) search).work ↔
        x ∈ search.work ∨ (x ∈ bs ∧ follow a x = true) ∧ x ∉ search.found) := by
    intro bs
    induction bs with
    | nil => simp
    | cons b bs ih =>
        intro search
        obtain ⟨hfound, hwork⟩ := ih (search.find agenda (follow a) b)
        rw [List.foldl_cons, hfound, hwork]
        unfold Search.find
        split
        · simp only [Std.ExtTreeSet.mem_insert, Std.compare_eq_iff_eq, Agenda.mem_add,
            List.mem_cons]
          grind
        · simp only [List.mem_cons]
          grind
  have hadj : x ∈ (G.targets a).toList ↔ G.Adj a x := Std.ExtTreeSet.mem_toList
  rw [← hadj]
  exact hfold _ search

/-- The search from `start` has found `found`, and still has to look at `work`. -/
structure Explored (G : Digraph α) (follow : α → α → Bool) (start : α)
    (found : Std.ExtTreeSet α) (work : List α) : Prop where
  reached : ∀ x ∈ found, Relation.TransGen (fun a b => G.Adj a b ∧ follow a b = true) start x
  listed : ∀ x ∈ work, x = start ∨ x ∈ found
  closed : ∀ x, x = start ∨ x ∈ found → x ∈ work ∨ ∀ y, G.Adj x y →
    follow x y = true → y ∈ found

namespace Explored

variable {start : α} {found : Std.ExtTreeSet α} {work : List α}

omit [Std.LawfulEqOrd α] in
theorem initial : G.Explored follow start ∅ [start] where
  reached := by simp
  listed := by simp
  closed := by simp

/-- A round keeps the invariant: the vertex that it looks at need not be looked at again. -/
theorem lookAt (h : G.Explored follow start found (a :: work)) :
    G.Explored follow start (G.lookAt agenda follow a ⟨found, work⟩).found
      (G.lookAt agenda follow a ⟨found, work⟩).work where
  reached x hx := by
    rcases mem_lookAt_iff.1.1 hx with hx | hx
    · exact h.reached x hx
    · rcases h.listed a List.mem_cons_self with rfl | ha
      · exact .single hx
      · exact .tail (h.reached a ha) hx
  listed x hx := by
    rw [mem_lookAt_iff.1]
    rcases mem_lookAt_iff.2.1 hx with hx | ⟨hx, -⟩
    · exact (h.listed x (List.mem_cons_of_mem _ hx)).imp_right .inl
    · exact .inr (.inr hx)
  closed x hx := by
    simp only [mem_lookAt_iff.1, mem_lookAt_iff.2] at hx ⊢
    by_cases hknown : x = start ∨ x ∈ found
    · rcases h.closed x hknown with hmem | hnext
      · rcases List.mem_cons.1 hmem with rfl | hmem
        · exact .inr fun y hadj hfollow => .inr ⟨hadj, hfollow⟩
        · exact .inl (.inl hmem)
      · exact .inr fun y hadj hfollow => .inl (hnext y hadj hfollow)
    · rw [not_or] at hknown
      rcases hx with hstart | hx | hx
      · exact absurd hstart hknown.1
      · exact absurd hx hknown.2
      · exact .inl (.inr ⟨hx, hknown.2⟩)

omit [Std.LawfulEqOrd α] in
/-- When nothing is left to look at, all that walks reach is found. -/
theorem mem_iff (h : G.Explored follow start found []) :
    x ∈ found ↔ Relation.TransGen (fun a b => G.Adj a b ∧ follow a b = true) start x := by
  have hnext : ∀ y, y = start ∨ y ∈ found → ∀ z, G.Adj y z →
      follow y z = true → z ∈ found :=
    fun y hy => (h.closed y hy).resolve_left List.not_mem_nil
  constructor
  · exact h.reached x
  · intro hwalk
    induction hwalk with
    | single hstep => exact hnext start (.inl rfl) _ hstep.1 hstep.2
    | tail _ hstep ih => exact hnext _ (.inr ih) _ hstep.1 hstep.2

theorem mem_explore_iff (h : G.Explored follow start found work) :
    x ∈ G.explore agenda follow found work ↔
      Relation.TransGen (fun a b => G.Adj a b ∧ follow a b = true) start x := by
  fun_induction explore G agenda follow found work with
  | case1 => exact h.mem_iff
  | case2 found a work next ih => exact ih h.lookAt

end Explored

/-! ## Walks -/

/-- A search finds what non-empty walks reach along the edges that it follows, the start apart. -/
theorem mem_search_iff : b ∈ G.search agenda follow a ↔
    b ≠ a ∧ Relation.TransGen (fun x y => G.Adj x y ∧ follow x y = true) a b := by
  rw [search, Std.ExtTreeSet.mem_erase, Explored.initial.mem_explore_iff, ne_eq,
    Std.compare_eq_iff_eq, eq_comm]

/-- The closure holds what non-empty walks reach, the start apart. -/
theorem mem_closure_iff : b ∈ G.closure agenda a ↔ b ≠ a ∧ Relation.TransGen G.Adj a b := by
  simp [closure, mem_search_iff]

/-- The mutual closure holds what chains of edges that run both ways reach, the start apart. -/
theorem mem_mutualClosure_iff : b ∈ G.mutualClosure agenda a ↔
    b ≠ a ∧ Relation.TransGen (fun x y => G.Adj x y ∧ G.Adj y x) a b := by
  simp [mutualClosure, mem_search_iff]

end Digraph
end Regions
