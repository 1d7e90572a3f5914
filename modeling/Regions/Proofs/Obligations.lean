import Mathlib.Data.Finset.Card
import Regions.Proofs.CallLinks
import Regions.Proofs.Twins

/-!
# Graphs of obligations

An outlives graph is made by a list of obligations, recorded one after the other. What it answers
depends on which obligations are in the list, not on their order or on how often each is there. The
type of the stored data is the exception: the first obligation that gives one decides.

* `Outlives.recording`: the graph of a list of obligations;
* `Obliged obligations s c`: some obligation asks for the data `s` in the container `c`, and that
  says something;
* `queries_iff_walk`: what rests on what, and the regions among it, are given by walks along these;
* `Counted G`: the counter of `G` is the number of its edges;
* `equivalents_iff_chain`: lifetimes that stand for the same data form classes that rest on the
  same;
* `recording_determined`: the edges, their number and their types, and what more obligations can
  change.
-/

namespace Regions

open Std Relation

/-- Something that an outlives graph is told. -/
inductive Obligation
  /-- Data is stored in a container. Its type is given where it is known. -/
  | store (stored container : Lifetime) (ty? : Option Ty)
  /-- Two lifetimes stand for the same data. -/
  | unify (a b : Lifetime)
  deriving DecidableEq

namespace Obligation

/-- The obligation speaks of the data `s` in the container `c`. -/
def Asks : Obligation → Lifetime → Lifetime → Prop
  | .store stored container _, s, c => s = stored ∧ c = container
  | .unify a b, s, c => (s = a ∧ c = b) ∨ (s = b ∧ c = a)

/-- The obligation contributes an edge from `s` to `c`: both are storage, and they differ. -/
def Contributes (obligation : Obligation) (s c : Lifetime) : Prop :=
  s ≠ c ∧ s.origin ≠ .none ∧ c.origin ≠ .none ∧ obligation.Asks s c

/-- The type that the obligation carries. -/
def ty? : Obligation → Option Ty
  | .store _ _ ty? => ty?
  | .unify _ _ => none

instance (obligation : Obligation) (s c : Lifetime) : Decidable (obligation.Asks s c) :=
  match obligation with
  | .store stored container _ => inferInstanceAs (Decidable (s = stored ∧ c = container))
  | .unify a b => inferInstanceAs (Decidable ((s = a ∧ c = b) ∨ (s = b ∧ c = a)))

instance (obligation : Obligation) (s c : Lifetime) : Decidable (obligation.Contributes s c) :=
  inferInstanceAs
    (Decidable (s ≠ c ∧ s.origin ≠ .none ∧ c.origin ≠ .none ∧ obligation.Asks s c))

end Obligation

/-- Some obligation of the list contributes an edge from `s` to `c`. -/
def Obliged (obligations : List Obligation) (s c : Lifetime) : Prop :=
  ∃ obligation ∈ obligations, obligation.Contributes s c

namespace Outlives

variable {G H : Outlives} {obligations : List Obligation} {a b c k l s : Lifetime}
  {obligation : Obligation}

/-- The graph with one more obligation. -/
def add (graph : Outlives) : Obligation → Outlives
  | .store stored container ty? => graph.store stored container ty?
  | .unify a b => graph.unify a b

/-- The graph of a list of obligations, recorded in order. -/
def recording (obligations : List Obligation) : Outlives :=
  obligations.foldl add ∅

/-! ## Edges -/

theorem Relevant.symm (h : Relevant s c) : Relevant c s := ⟨Ne.symm h.1, h.2.2, h.2.1⟩

theorem contributes_iff : obligation.Contributes s c ↔ obligation.Asks s c ∧ Relevant s c := by
  simp only [Obligation.Contributes, Relevant, Lifetime.isNone, decide_eq_false_iff_not]
  grind

/-- An obligation adds the edges that it contributes. -/
theorem holds_add_iff :
    (G.add obligation).Holds c s ↔ obligation.Contributes s c ∨ G.Holds c s := by
  rw [contributes_iff]
  cases obligation with
  | store stored container ty? =>
    refine holds_store_iff.trans (or_congr_left ?_)
    constructor
    · rintro ⟨rfl, rfl, hrelevant⟩
      exact ⟨⟨rfl, rfl⟩, hrelevant⟩
    · rintro ⟨⟨rfl, rfl⟩, hrelevant⟩
      exact ⟨rfl, rfl, hrelevant⟩
  | unify a b =>
    refine holds_unify_iff.trans (or_congr_left ?_)
    constructor
    · rintro ⟨⟨rfl, rfl⟩ | ⟨rfl, rfl⟩, hrelevant⟩
      · exact ⟨.inl ⟨rfl, rfl⟩, hrelevant⟩
      · exact ⟨.inr ⟨rfl, rfl⟩, hrelevant.symm⟩
    · rintro ⟨⟨rfl, rfl⟩ | ⟨rfl, rfl⟩, hrelevant⟩
      · exact ⟨.inl ⟨rfl, rfl⟩, hrelevant⟩
      · exact ⟨.inr ⟨rfl, rfl⟩, hrelevant.symm⟩

theorem holds_foldl_add_iff :
    (obligations.foldl add G).Holds c s ↔ Obliged obligations s c ∨ G.Holds c s := by
  induction obligations generalizing G with
  | nil => simp [Obliged]
  | cons obligation obligations ih =>
    rw [List.foldl_cons, ih, holds_add_iff]
    simp only [Obliged, List.exists_mem_cons_iff]
    grind

/-- The edges of a graph are those that its obligations contribute. -/
theorem holds_recording_iff : (recording obligations).Holds c s ↔ Obliged obligations s c := by
  have hempty : ¬ (∅ : Outlives).Holds c s := Digraph.not_adj_empty c s
  rw [recording, holds_foldl_add_iff, or_iff_left hempty]

theorem below_recording {obligations obligations' : List Obligation}
    (h : obligations ⊆ obligations') :
    (recording obligations).Below (recording obligations') := by
  intro c s hholds
  obtain ⟨obligation, hmem, hcontributes⟩ := holds_recording_iff.1 hholds
  exact holds_recording_iff.2 ⟨obligation, h hmem, hcontributes⟩

/-! ## Walks -/

theorem transGen_holds_iff :
    TransGen (recording obligations).Holds l k ↔ TransGen (Obliged obligations) k l := by
  have hswap : (recording obligations).Holds = Function.swap (Obliged obligations) := by
    funext c s
    exact propext holds_recording_iff
  rw [hswap, Relation.transGen_swap]

/-- Everything that a lifetime rests on is found, and nothing else: the search ends on every graph,
cyclic or not, and finds what a walk along contributed edges leads from. So one lifetime outlasts
another if it is in the heap or a walk leads from it to the other, and the regions behind a lifetime
are those at the start of such walks. -/
theorem queries_iff_walk (obligations : List Obligation) :
    (∀ k l, k ∈ (recording obligations).supportOf l ↔
      k ≠ l ∧ Relation.TransGen (Obliged obligations) k l) ∧
    (∀ a b, (recording obligations).outlives a b = true ↔
      a.origin = .heap ∨ (a ≠ b ∧ Relation.TransGen (Obliged obligations) a b)) ∧
    (∀ a, (recording obligations).outlives a a = true ↔ a.origin = .heap) ∧
    ∀ k l, k ∈ (recording obligations).rootsOf l ↔
      k.role = .root ∧ k.origin ≠ .heap ∧ k.origin ≠ .none ∧
        (k = l ∨ Relation.TransGen (Obliged obligations) k l) := by
  have hsupport : ∀ k l, k ∈ (recording obligations).supportOf l ↔
      k ≠ l ∧ Relation.TransGen (Obliged obligations) k l :=
    fun k l => mem_supportOf_iff.trans (and_congr_right' transGen_holds_iff)
  have houtlives : ∀ a b, (recording obligations).outlives a b = true ↔
      a.origin = .heap ∨ (a ≠ b ∧ Relation.TransGen (Obliged obligations) a b) := by
    intro a b
    rw [outlives, Bool.or_eq_true, Std.ExtTreeSet.contains_iff_mem, hsupport]
    simp [Lifetime.isHeap]
  refine ⟨hsupport, houtlives, fun a => ?_, fun k l => ?_⟩
  · rw [houtlives]
    simp
  · rw [mem_rootsOf_iff, reaches_iff, hsupport]
    simp only [Lifetime.isRoot, Lifetime.isHeap, Lifetime.isNone, decide_eq_true_eq,
      decide_eq_false_iff_not]
    grind

/-! ## Classes of lifetimes that stand for the same data -/

/-- Lifetimes that stand for the same data rest on one another. -/
theorem reaches_of_mem_equivalents (h : b ∈ G.equivalents a) : G.Reaches a b := by
  obtain ⟨-, hchain⟩ := mem_equivalents_iff.1 h
  exact (TransGen.mono (fun _ _ hlinked => hlinked.1) a b hchain).to_reflTransGen

theorem mem_equivalents_comm : b ∈ G.equivalents a ↔ a ∈ G.equivalents b := by
  have hsymm : ∀ {a b}, b ∈ G.equivalents a → a ∈ G.equivalents b := by
    intro a b h
    obtain ⟨hne, hchain⟩ := mem_equivalents_iff.1 h
    refine mem_equivalents_iff.2 ⟨hne.symm, Relation.transGen_swap.1 ?_⟩
    exact TransGen.mono (fun _ _ hlinked => ⟨hlinked.2, hlinked.1⟩) a b hchain
  exact ⟨hsymm, hsymm⟩

theorem mem_equivalents_trans (hab : b ∈ G.equivalents a) (hbc : c ∈ G.equivalents b)
    (hne : c ≠ a) : c ∈ G.equivalents a :=
  mem_equivalents_iff.2 ⟨hne, (mem_equivalents_iff.1 hab).2.trans (mem_equivalents_iff.1 hbc).2⟩

theorem equivalents_mono (hle : G.Below H) (h : b ∈ G.equivalents a) : b ∈ H.equivalents a := by
  obtain ⟨hne, hchain⟩ := mem_equivalents_iff.1 h
  refine mem_equivalents_iff.2 ⟨hne, TransGen.mono (fun x y hlinked => ?_) a b hchain⟩
  exact ⟨hle x y hlinked.1, hle y x hlinked.2⟩

/-- Lifetimes that stand for the same data rest on the same. -/
theorem reaches_iff_of_mem_equivalents (h : b ∈ G.equivalents a) :
    G.Reaches a k ↔ G.Reaches b k :=
  ⟨(reaches_of_mem_equivalents (mem_equivalents_comm.1 h)).trans,
    (reaches_of_mem_equivalents h).trans⟩

theorem mem_insert_supportOf_iff : k ∈ (G.supportOf l).insert l ↔ G.Reaches l k := by
  rw [ExtTreeSet.mem_insert, Std.compare_eq_iff_eq, reaches_iff, @eq_comm _ l k]

/-- Two lifetimes stand for the same data exactly if a chain of edges that run both ways joins them.
This is an equivalence, lifetimes apart from themselves; and what a class rests on is common to all
of it, however the graph goes on. -/
theorem equivalents_iff_chain (obligations : List Obligation) (a b c : Lifetime) :
    (b ∈ (recording obligations).equivalents a ↔
      b ≠ a ∧ Relation.TransGen
      (fun x y => Obliged obligations x y ∧ Obliged obligations y x) a b) ∧
    (b ∈ (recording obligations).equivalents a →
      a ∈ (recording obligations).equivalents b) ∧
    (b ∈ (recording obligations).equivalents a →
      c ∈ (recording obligations).equivalents b → c ≠ a →
      c ∈ (recording obligations).equivalents a) ∧
    (b ∈ (recording obligations).equivalents a → b ∈ (recording obligations).supportOf a) ∧
    (b ∈ (recording obligations).equivalents a → ∀ more,
      ((recording (obligations ++ more)).supportOf a).insert a =
        ((recording (obligations ++ more)).supportOf b).insert b ∧
      (recording (obligations ++ more)).rootsOf a = (recording (obligations ++ more)).rootsOf
      b) := by
  have hlinked : (recording obligations).Linked =
      fun x y => Obliged obligations x y ∧ Obliged obligations y x := by
    funext x y
    rw [Linked, holds_recording_iff, holds_recording_iff, and_comm]
  refine ⟨by rw [mem_equivalents_iff, hlinked], mem_equivalents_comm.1, mem_equivalents_trans,
    fun h => ?_, fun h more => ?_⟩
  · exact mem_supportOf_iff_reaches.2
      ⟨(mem_equivalents_iff.1 h).1, reaches_of_mem_equivalents h⟩
  · -- The class is kept by every obligation that follows.
    have hlater := equivalents_mono (below_recording (List.subset_append_left obligations more)) h
    constructor
    · refine Std.ExtTreeSet.ext_mem fun k => ?_
      rw [mem_insert_supportOf_iff, mem_insert_supportOf_iff, reaches_iff_of_mem_equivalents hlater]
    · refine Std.ExtTreeSet.ext_mem fun k => ?_
      rw [mem_rootsOf_iff, mem_rootsOf_iff, reaches_iff_of_mem_equivalents hlater]

/-- Three variables share their data, the first two at once and the third by the way of the
second. -/
theorem equivalents_of_chaining :
    let x : Lifetime := ⟨⟨["f", "x"]⟩, 0, .alias, .localValue⟩
    let y : Lifetime := ⟨⟨["f", "y"]⟩, 0, .alias, .localValue⟩
    let z : Lifetime := ⟨⟨["f", "z"]⟩, 0, .alias, .localValue⟩
    let known := recording [.unify x y, .store y z none, .store z y none]
    z ∈ known.equivalents x ∧ x ∈ known.equivalents z ∧ z ∈ known.supportOf x ∧
      (recording ([.unify x y, .store y z none, .store z y none] ++
        [.store (.root ⟨["f", "p"]⟩ .localValue) z none])).rootsOf x =
      (recording ([.unify x y, .store y z none, .store z y none] ++
        [.store (.root ⟨["f", "p"]⟩ .localValue) z none])).rootsOf z := by
  intro x y z known
  have hyx : y ∈ known.equivalents x := (equivalents_iff_chain _ x y z).1.2
    ⟨by decide, .single ⟨⟨.unify x y, by decide⟩, ⟨.unify x y, by decide⟩⟩⟩
  have hzy : z ∈ known.equivalents y := (equivalents_iff_chain _ y z z).1.2 ⟨by
      decide, .single ⟨⟨.store y z none, by decide⟩, ⟨.store z y none, by decide⟩⟩⟩
  have hzx : z ∈ known.equivalents x := (equivalents_iff_chain _ x y z).2.2.1 hyx hzy (by decide)
  obtain ⟨-, hsymm, -, hsupport, hclass⟩ := equivalents_iff_chain
    [.unify x y, .store y z none, .store z y none] x z z
  exact ⟨hzx, hsymm hzx, hsupport hzx, (hclass hzx _).2⟩

/-! ## Number of edges -/

/-- The storings that a graph holds are finitely many, and the counter gives their number. -/
def Counted (G : Outlives) : Prop :=
  ∃ edges : Finset Storing, (∀ edge, edge ∈ edges ↔ G.Holds edge.container edge.stored) ∧
    edges.card = G.edgeCount

theorem counted_empty : Counted ∅ := by
  refine ⟨∅, fun edge => ?_, rfl⟩
  have hempty : ¬ (∅ : Outlives).Holds edge.container edge.stored := Digraph.not_adj_empty _ _
  exact iff_of_false (Finset.notMem_empty edge) hempty

/-- The counter goes up when an edge is new, and only then. -/
theorem Counted.store (h : Counted G) (stored container : Lifetime) (ty? : Option Ty) :
    Counted (G.store stored container ty?) := by
  obtain ⟨edges, hedges, hcard⟩ := h
  by_cases hrelevant : Relevant stored container
  · have hskip : ¬ (stored = container ∨ stored.isNone ∨ container.isNone) := by
      simp [hrelevant.1, hrelevant.2.1, hrelevant.2.2]
    have hmem : ∀ edge : Storing,
      (G.store stored container ty?).Holds edge.container edge.stored ↔
        edge = ⟨stored, container⟩ ∨ edge ∈ edges := by
      rintro ⟨s, c⟩
      rw [holds_store_iff, hedges, Storing.mk.injEq]
      grind
    refine ⟨insert ⟨stored, container⟩ edges, fun edge => ?_, ?_⟩
    · rw [hmem, Finset.mem_insert]
    · by_cases hknown : G.contents.Adj container stored
      · rw [Finset.insert_eq_of_mem ((hedges ⟨stored, container⟩).2 hknown), hcard]
        simp [Outlives.store, if_neg hskip, hknown]
      · rw [Finset.card_insert_of_notMem fun hin =>
          hknown ((hedges ⟨stored, container⟩).1 hin), hcard]
        simp [Outlives.store, if_neg hskip, hknown]
  · have hskip : stored = container ∨ stored.isNone ∨ container.isNone := by
      simp only [Relevant] at hrelevant
      grind
    rw [Outlives.store.eq_def, if_pos hskip]
    exact ⟨edges, hedges, hcard⟩

theorem Counted.add (h : Counted G) (obligation : Obligation) : Counted (G.add obligation) := by
  cases obligation with
  | store stored container ty? => exact h.store stored container ty?
  | unify a b => exact (h.store a b none).store b a none

theorem counted_recording (obligations : List Obligation) : Counted (recording obligations) := by
  have hfold : ∀ G : Outlives, Counted G → Counted (obligations.foldl Outlives.add G) := by
    induction obligations with
    | nil => exact fun _ h => h
    | cons obligation obligations ih => exact fun G h => ih _ (h.add obligation)
  exact hfold ∅ counted_empty

/-! ## Types of stored data -/

theorem storedType?_store {stored container : Lifetime} {ty? : Option Ty} :
    (G.store stored container ty?).storedType? s c = (G.storedType? s c).or
      (if (Obligation.store stored container ty?).Contributes s c then ty? else none) := by
  by_cases hrelevant : Relevant stored container
  · have hskip : ¬ (stored = container ∨ stored.isNone ∨ container.isNone) := by
      simp [hrelevant.1, hrelevant.2.1, hrelevant.2.2]
    have hcontributes : (Obligation.store stored container ty?).Contributes s c ↔ s = stored ∧
        c = container := by
      rw [contributes_iff]
      constructor
      · exact And.left
      · rintro ⟨rfl, rfl⟩
        exact ⟨⟨rfl, rfl⟩, hrelevant⟩
    simp only [storedType?, store, if_neg hskip, hcontributes]
    cases ty? with
    | none => simp
    | some ty =>
      -- A type is recorded only where none was.
      simp only [ExtTreeMap.getElem?_insertIfNew, Std.compare_eq_iff_eq, Storing.mk.injEq]
      by_cases hsame : s = stored ∧ c = container
      · obtain ⟨rfl, rfl⟩ := hsame
        cases hfound : G.types[(⟨s, c⟩ : Storing)]? with
        | none | some found => simp [ExtTreeMap.mem_iff_isSome_getElem?, hfound]
      · rw [if_neg hsame, if_neg fun h => hsame ⟨h.1.1.symm, h.1.2.symm⟩, Option.or_none]
  · have hskip : stored = container ∨ stored.isNone ∨ container.isNone := by
      simp only [Relevant] at hrelevant
      grind
    have hcontributes : ¬ (Obligation.store stored container ty?).Contributes s c := by
      rw [contributes_iff]
      rintro ⟨⟨rfl, rfl⟩, h⟩
      exact hrelevant h
    rw [storedType?, store.eq_def, if_pos hskip, if_neg hcontributes, Option.or_none]
    rfl

theorem storedType?_add : (G.add obligation).storedType? s c =
      (G.storedType? s c).or (if obligation.Contributes s c then obligation.ty? else none) := by
  cases obligation with
  | store stored container ty? => exact storedType?_store
  | unify a b => simp [add, unify, storedType?_store, Obligation.ty?]

theorem storedType?_foldl_add : (obligations.foldl add G).storedType? s c = (G.storedType? s c).or
      ((obligations.filter fun obligation => obligation.Contributes s c).findSome?
        Obligation.ty?) := by
  induction obligations generalizing G with
  | nil => simp
  | cons obligation obligations ih =>
    rw [List.foldl_cons, ih, storedType?_add, Option.or_assoc]
    by_cases hcontributes : obligation.Contributes s c
    · rw [if_pos hcontributes, List.filter_cons_of_pos (by simpa using hcontributes),
        List.findSome?_cons]
      cases obligation.ty? <;> rfl
    · rw [if_neg hcontributes, List.filter_cons_of_neg (by simpa using hcontributes),
        Option.none_or]

/-! ## Answers that only grow -/

theorem supportOf_mono (hle : G.Below H) (h : k ∈ G.supportOf l) : k ∈ H.supportOf l := by
  obtain ⟨hne, hreaches⟩ := mem_supportOf_iff_reaches.1 h
  exact mem_supportOf_iff_reaches.2 ⟨hne, hreaches.mono hle⟩

theorem rootsOf_mono (hle : G.Below H) (h : k ∈ G.rootsOf l) : k ∈ H.rootsOf l := by
  obtain ⟨hreaches, hroot⟩ := mem_rootsOf_iff.1 h
  exact mem_rootsOf_iff.2 ⟨hreaches.mono hle, hroot⟩

theorem outlives_mono (hle : G.Below H) (h : G.outlives a b = true) : H.outlives a b = true := by
  rw [outlives, Bool.or_eq_true, ExtTreeSet.contains_iff_mem] at h ⊢
  exact h.imp_right (supportOf_mono hle)

theorem isHeapBacked_mono (hle : G.Below H) (h : Flow.isHeapBacked G l = true) :
    Flow.isHeapBacked H l = true := by
  rw [Flow.isHeapBacked, Bool.or_eq_true, any_eq_true_iff] at h ⊢
  refine h.imp_right ?_
  rintro ⟨k, hk, hheap⟩
  exact ⟨k, equivalents_mono hle hk, hheap⟩

theorem isEmpty_eq_false_of_subset {some more : LifetimeSet} (hsub : ∀ k ∈ some, k ∈ more)
    (h : some.isEmpty = false) : more.isEmpty = false := by
  rw [ExtTreeSet.isEmpty_eq_false_iff] at h ⊢
  rintro rfl
  refine h (ExtTreeSet.eq_empty_iff_forall_not_mem.2 fun k hk => ?_)
  exact ExtTreeSet.not_mem_empty (hsub k hk)

theorem isSome_violation?_mono (hle : G.Below H) {options : Flow.Options} {write : Flow.HeapWrite}
    (h : (write.violation? options G).isSome = true) :
    (write.violation? options H).isSome = true := by
  simp only [Flow.HeapWrite.violation?, Bool.and_eq_true, Bool.not_eq_true', Option.isSome_ite]
    at h ⊢
  obtain ⟨⟨hchecked, hbacked⟩, hroots⟩ := h
  exact ⟨⟨hchecked, isHeapBacked_mono hle hbacked⟩,
    isEmpty_eq_false_of_subset (fun _ => rootsOf_mono hle) hroots⟩

theorem isEmpty_returnRoots_mono (hle : G.Below H) {returned : Bundle}
    (h : (Flow.returnRoots G returned).isEmpty = false) :
    (Flow.returnRoots H returned).isEmpty = false := by
  refine isEmpty_eq_false_of_subset (fun root hroot => ?_) h
  obtain ⟨l, hl, hroot⟩ := Flow.mem_returnRoots_iff.1 hroot
  exact Flow.mem_returnRoots_iff.2 ⟨l, hl, rootsOf_mono hle hroot⟩

/-- Graphs with the same edges give the same answers. -/
theorem answers_eq_of_below (hle : G.Below H) (hge : H.Below G) (l : Lifetime) :
    G.supportOf l = H.supportOf l ∧ G.equivalents l = H.equivalents l ∧
    G.rootsOf l = H.rootsOf l ∧ ∀ k, G.outlives k l = H.outlives k l := by
  refine ⟨ExtTreeSet.ext_mem fun k => ⟨supportOf_mono hle, supportOf_mono hge⟩,
    ExtTreeSet.ext_mem fun k => ⟨equivalents_mono hle, equivalents_mono hge⟩,
    ExtTreeSet.ext_mem fun k => ⟨rootsOf_mono hle, rootsOf_mono hge⟩, fun k => ?_⟩
  exact Bool.eq_iff_iff.2 ⟨outlives_mono hle, outlives_mono hge⟩

/-- A graph depends only on the set of its obligations. Its edges are those that some obligation
contributes, each counted once; the type of an edge is that of the first contributing obligation
that carries one. Lists with the same obligations, in any order and each any number of times, give
the same answers. More obligations only add to the answers, so that what is rejected stays
rejected. -/
theorem recording_determined (obligations : List Obligation) :
    (∀ s c, (recording obligations).Holds c s ↔
      ∃ obligation ∈ obligations, obligation.Contributes s c) ∧
    (∃ edges : Finset Storing,
      (∀ edge, edge ∈ edges ↔ ∃ obligation ∈ obligations, obligation.Contributes
        edge.stored edge.container) ∧
      edges.card = (recording obligations).edgeCount) ∧
    (∀ s c, (recording obligations).storedType? s c =
      (obligations.filter fun obligation => obligation.Contributes s c).findSome?
      Obligation.ty?) ∧
    (∀ others, (∀ obligation, obligation ∈ others ↔ obligation ∈ obligations) → ∀ l,
      (recording others).supportOf l = (recording obligations).supportOf l ∧
      (recording others).equivalents l = (recording obligations).equivalents l ∧
      (recording others).rootsOf l = (recording obligations).rootsOf l ∧
      ∀ k, (recording others).outlives k l = (recording obligations).outlives k l) ∧
    ∀ more, ∀ l, (∀ k ∈ (recording obligations).supportOf l,
        k ∈ (recording (obligations ++ more)).supportOf l) ∧
      (∀ k ∈ (recording obligations).equivalents l,
        k ∈ (recording (obligations ++ more)).equivalents l) ∧
      (∀ k ∈ (recording obligations).rootsOf l,
        k ∈ (recording (obligations ++ more)).rootsOf l) ∧
      (∀ k, (recording obligations).outlives k l = true →
        (recording (obligations ++ more)).outlives k l = true) ∧
      (∀ options, ∀ write : Flow.HeapWrite,
        (write.violation? options (recording obligations)).isSome = true →
        (write.violation? options (recording (obligations ++ more))).isSome = true) ∧
      ∀ returned, (Flow.returnRoots (recording obligations) returned).isEmpty = false →
        (Flow.returnRoots (recording (obligations ++ more)) returned).isEmpty = false := by
  refine ⟨fun s c => holds_recording_iff, ?_, fun s c => ?_, fun others hsame l => ?_,
    fun more l => ?_⟩
  · obtain ⟨edges, hedges, hcard⟩ := counted_recording obligations
    exact ⟨edges, fun edge => (hedges edge).trans holds_recording_iff, hcard⟩
  · have hempty : (∅ : Outlives).storedType? s c = none := Std.ExtTreeMap.getElem?_empty
    rw [recording, storedType?_foldl_add, hempty, Option.none_or]
  · exact answers_eq_of_below (below_recording fun obligation => (hsame obligation).1)
      (below_recording fun obligation => (hsame obligation).2) l
  · have hle := below_recording (List.subset_append_left obligations more)
    exact ⟨fun _ => supportOf_mono hle, fun _ => equivalents_mono hle, fun _ => rootsOf_mono hle,
      fun _ => outlives_mono hle, fun _ _ => isSome_violation?_mono hle,
      fun _ => isEmpty_returnRoots_mono hle⟩

/-- A parameter's data stored twice in a variable, before and after a type is known for it, and the
same said in another order and with a repetition. -/
theorem recording_of_restating :
    let p : Lifetime := .root ⟨["f", "p"]⟩ .localValue
    let x : Lifetime := ⟨⟨["f", "x"]⟩, 0, .alias, .localValue⟩
    let y : Lifetime := ⟨⟨["f", "y"]⟩, 0, .alias, .localValue⟩
    let known : List Obligation := [.store p x none, .store p x (some .int), .unify x y]
    let restated : List Obligation :=
      [.unify x y, .store p x (some .int), .unify x y, .store p x none]
    let write : Flow.HeapWrite := ⟨.heap, y, ⟨0, 0⟩⟩
    (recording restated).supportOf y = (recording known).supportOf y ∧
      (recording known).storedType? p x = some .int ∧
      (write.violation? {} (recording known)).isSome = true ∧
      (write.violation? {} (recording (known ++ [.store y .heap none]))).isSome = true := by
  intro p x y known restated write
  obtain ⟨-, -, htypes, hsame, hmore⟩ := recording_determined known
  have hmembers : ∀ obligation, obligation ∈ restated ↔ obligation ∈ known := by
    simp only [restated, known, List.mem_cons, List.not_mem_nil, or_false]
    grind
  have hviolation : (write.violation? {} (recording known)).isSome = true := by decide +kernel
  exact ⟨(hsame restated hmembers y).1, (htypes p x).trans (by decide), hviolation,
    (hmore [.store y .heap none] y).2.2.2.2.1 {} write hviolation⟩

end Outlives
end Regions
