import Mathlib.Logic.Relation
import Regions.Lifetime.Outlives

/-!
# What a lifetime rests on

`Outlives.Reaches G l k`: the lifetime `l` is `k`, or rests on `k` through storings. The queries of
the graph are stated through it, and it only grows with the graph.
-/

namespace Regions
namespace Outlives

open Std Relation

variable {G H : Outlives} {a b k l : Lifetime}

instance : Decidable (G.Holds a b) :=
  inferInstanceAs (Decidable (b ∈ G.contents.targets a))

/-- `l` is `k`, or rests on it. -/
def Reaches (G : Outlives) (l k : Lifetime) : Prop :=
  ReflTransGen G.Holds l k

/-- Every storing of `G` is one of `H`. -/
def Below (G H : Outlives) : Prop :=
  ∀ container stored, G.Holds container stored → H.Holds container stored

theorem Below.refl (G : Outlives) : G.Below G := fun _ _ h => h

theorem Below.trans {K : Outlives} (h : G.Below H) (h' : H.Below K) : G.Below K :=
  fun c x hx => h' c x (h c x hx)

theorem Reaches.refl (G : Outlives) (l : Lifetime) : G.Reaches l l := ReflTransGen.refl

theorem Reaches.trans {m : Lifetime} (h : G.Reaches l k) (h' : G.Reaches k m) : G.Reaches l m :=
  ReflTransGen.trans h h'

theorem Reaches.of_holds (h : G.Holds l k) : G.Reaches l k := ReflTransGen.single h

theorem Reaches.mono (hle : G.Below H) (h : G.Reaches l k) : H.Reaches l k :=
  ReflTransGen.mono hle l k h

/-! ## Queries -/

theorem mem_supportOf_iff_reaches : k ∈ G.supportOf l ↔ k ≠ l ∧ G.Reaches l k := by
  rw [mem_supportOf_iff, Reaches]
  constructor
  · rintro ⟨hne, h⟩
    exact ⟨hne, h.to_reflTransGen⟩
  · rintro ⟨hne, h⟩
    rcases Relation.reflTransGen_iff_eq_or_transGen.1 h with heq | h
    · exact absurd heq hne
    · exact ⟨hne, h⟩

theorem reaches_iff : G.Reaches l k ↔ k = l ∨ k ∈ G.supportOf l := by
  rw [mem_supportOf_iff_reaches]
  constructor
  · intro h
    by_cases heq : k = l
    · exact .inl heq
    · exact .inr ⟨heq, h⟩
  · rintro (rfl | ⟨_, h⟩)
    · exact Reaches.refl G k
    · exact h

theorem reaches_iff_mem_supportOf (hne : k ≠ l) : G.Reaches l k ↔ k ∈ G.supportOf l := by
  rw [mem_supportOf_iff_reaches]
  exact ⟨fun h => ⟨hne, h⟩, And.right⟩

theorem mem_rootsOf_iff {r : Lifetime} : r ∈ G.rootsOf l ↔
      G.Reaches l r ∧ r.isRoot = true ∧ r.isHeap = false ∧ r.isNone = false := by
  rw [rootsOf, ← ExtTreeSet.mem_toList, ExtTreeSet.toList_filter]
  simp only [List.mem_filter, ExtTreeSet.mem_toList, ExtTreeSet.mem_insert,
    Std.compare_eq_iff_eq, mem_supportOf_iff_reaches, Bool.and_eq_true, Bool.not_eq_true']
  constructor
  · rintro ⟨rfl | ⟨_, h⟩, ⟨hroot, hheap⟩, hnone⟩
    · exact ⟨Reaches.refl G l, hroot, hheap, hnone⟩
    · exact ⟨h, hroot, hheap, hnone⟩
  · rintro ⟨h, hroot, hheap, hnone⟩
    refine ⟨?_, ⟨hroot, hheap⟩, hnone⟩
    by_cases heq : l = r
    · exact .inl heq
    · exact .inr ⟨Ne.symm heq, h⟩

/-! ## Growth -/

theorem below_store (G : Outlives) (stored container : Lifetime) (ty? : Option Ty) :
    G.Below (G.store stored container ty?) :=
  fun _ _ h => holds_store_iff.2 (.inr h)

theorem below_unify (G : Outlives) (a b : Lifetime) : G.Below (G.unify a b) :=
  (below_store G a b none).trans (below_store (G.store a b) b a none)

theorem holds_unify_iff {c x : Lifetime} : (G.unify a b).Holds c x ↔
      ((c = b ∧ x = a ∨ c = a ∧ x = b) ∧ Relevant a b) ∨ G.Holds c x := by
  have hsymm : Relevant b a ↔ Relevant a b := by
    unfold Relevant
    constructor <;> (rintro ⟨h₁, h₂, h₃⟩; exact ⟨Ne.symm h₁, h₃, h₂⟩)
  simp only [unify, holds_store_iff, hsymm]
  grind

/-- It is recorded that `a` and `b` stand for the same data, as far as that says something. -/
def Unified (G : Outlives) (a b : Lifetime) : Prop :=
  Relevant a b → G.Holds a b ∧ G.Holds b a

theorem unified_unify (G : Outlives) (a b : Lifetime) : (G.unify a b).Unified a b := fun h =>
    ⟨holds_unify_iff.2 (.inl ⟨.inr ⟨rfl, rfl⟩, h⟩),
    holds_unify_iff.2 (.inl ⟨.inl ⟨rfl, rfl⟩, h⟩)⟩

theorem Unified.mono (hle : G.Below H) (h : G.Unified a b) : H.Unified a b :=
  fun hrel => ⟨hle _ _ (h hrel).1, hle _ _ (h hrel).2⟩

/-- `l` is `k`, or holds it itself. -/
def Near (G : Outlives) (l k : Lifetime) : Prop :=
  k = l ∨ G.Holds l k

theorem Near.mono (hle : G.Below H) (h : G.Near l k) : H.Near l k := h.imp_right (hle l k)

theorem Near.reaches (h : G.Near l k) : G.Reaches l k := by
  rcases h with rfl | hholds
  · exact Reaches.refl G k
  · exact Reaches.of_holds hholds

/-- What is stored is held by its container, unless nothing was recorded. -/
theorem near_store (hstored : a.isNone = false) (hcontainer : b.isNone = false)
    (ty? : Option Ty) : (G.store a b ty?).Near b a := by
  by_cases heq : a = b
  · exact .inl heq
  · exact .inr (holds_store_iff.2 (.inl ⟨rfl, rfl, heq, hstored, hcontainer⟩))

theorem reaches_store (hstored : a.isNone = false) (hcontainer : b.isNone = false)
    (ty? : Option Ty) : (G.store a b ty?).Reaches b a :=
  (near_store hstored hcontainer ty?).reaches

/-! ## Adding storings -/

/-- `H` is `G` with the storings of `E` added, as far as they say something. -/
def Adds (E : Lifetime → Lifetime → Prop) (G H : Outlives) : Prop :=
  ∀ container stored,
    H.Holds container stored ↔ (E container stored ∧ Relevant stored container) ∨
      G.Holds container stored

variable {E E' : Lifetime → Lifetime → Prop}

theorem Adds.below (h : Adds E G H) : G.Below H := fun c x hx => (h c x).2 (.inr hx)

theorem adds_store (G : Outlives) (stored container : Lifetime) (ty? : Option Ty) :
    Adds (fun c x => c = container ∧ x = stored) G (G.store stored container ty?) := by
  intro c x
  rw [holds_store_iff]
  constructor
  · rintro (⟨rfl, rfl, hrel⟩ | h)
    · exact .inl ⟨⟨rfl, rfl⟩, hrel⟩
    · exact .inr h
  · rintro (⟨⟨rfl, rfl⟩, hrel⟩ | h)
    · exact .inl ⟨rfl, rfl, hrel⟩
    · exact .inr h

theorem Adds.trans {K : Outlives} (h : Adds E G H) (h' : Adds E' H K) :
    Adds (fun c x => E c x ∨ E' c x) G K := by
  intro c x
  rw [h' c x, h c x]
  grind

theorem Adds.congr (h : Adds E G H) (hiff : ∀ c x, E c x ↔ E' c x) : Adds E' G H := by
  intro c x
  rw [h c x, hiff]

/-- An added storing is reached from its container. -/
theorem Adds.reaches (h : Adds E G H) (hadd : E l k) (hl : l.isNone = false)
    (hk : k.isNone = false) : H.Reaches l k := by
  by_cases heq : k = l
  · rw [heq]
    exact Reaches.refl H l
  · exact Reaches.of_holds ((h l k).2 (.inl ⟨hadd, heq, hk, hl⟩))

/-- What is reached after storings are added was reached before, or goes through one of them. -/
theorem Adds.reaches_or (h : Adds E G H) (hreach : H.Reaches l k) :
    G.Reaches l k ∨ ∃ c x, E c x ∧ G.Reaches l c := by
  induction hreach with
  | refl => exact .inl (Reaches.refl G l)
  | @tail m n _ hstep ih =>
    rcases ih with hm | hadded
    · rcases (h m n).1 hstep with ⟨hE, _⟩ | hold
      · exact .inr ⟨m, n, hE, hm⟩
      · exact .inl (hm.trans (Reaches.of_holds hold))
    · exact .inr hadded

end Outlives
end Regions
