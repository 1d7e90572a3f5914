import Regions.Proofs.Steps

/-!
# Chains of captures

Captures are recorded one after the other. A variable holds on to whatever a chain of records leads
from, and the holders of a variable are those that such a chain leads to, also where the records run
in circles.

* `Captures.recording`: the captures that a list of records makes;
* `Captures.adj_recording_iff`: what each record adds;
* `Captures.Converse`: the two graphs that records are kept in have the same edges, turned round;
* `Captures.queries_iff_chain`: the two queries are the two directions of one relation.
-/

namespace Regions
namespace Captures

open Relation

variable {records : List (Path × Path)} {x y : Path}

/-- The captures that a list of records makes. A record names what is captured, and then its
holder. -/
def recording (records : List (Path × Path)) : Captures :=
  records.foldl (fun captures entry => captures.record entry.1 entry.2) ∅

/-- Every record adds one edge, except that nothing captures itself. -/
theorem adj_recording_iff :
    (recording records).held.Adj y x ↔ (x, y) ∈ records ∧ x ≠ y := by
  have hfold : ∀ captures : Captures,
      (records.foldl (fun captures entry => captures.record entry.1 entry.2)
      captures).held.Adj y x ↔ ((x, y) ∈ records ∧ x ≠ y) ∨ captures.held.Adj y x := by
    induction records with
    | nil => simp
    | cons entry records ih =>
      intro captures
      rw [List.foldl_cons, ih, adj_record_iff, List.mem_cons, Prod.ext_iff]
      grind
  have hempty : ¬ (∅ : Captures).held.Adj y x := Digraph.not_adj_empty y x
  rw [recording, hfold, or_iff_left hempty]

/-- Who holds on to a variable is recorded with the holder, and with the variable. -/
def Converse (captures : Captures) : Prop :=
  ∀ x y, captures.dependents.Adj x y ↔ captures.held.Adj y x

theorem Converse.record {captures : Captures} (h : captures.Converse) (captured holder : Path) :
    (captures.record captured holder).Converse := by
  intro x y
  unfold Captures.record
  split
  · exact h x y
  · rw [Digraph.adj_insert_iff, Digraph.adj_insert_iff, h x y, and_comm (a := x = captured)]

theorem converse_recording (records : List (Path × Path)) : (recording records).Converse := by
  have hfold : ∀ captures : Captures, captures.Converse →
      (records.foldl (fun captures entry => captures.record entry.1 entry.2)
      captures).Converse := by
    induction records with
    | nil => exact fun _ h => h
    | cons entry records ih => exact fun captures h => ih _ (h.record entry.1 entry.2)
  refine hfold ∅ fun x y => ?_
  have hdependents : ¬ (∅ : Captures).dependents.Adj x y := Digraph.not_adj_empty x y
  have hheld : ¬ (∅ : Captures).held.Adj y x := Digraph.not_adj_empty y x
  exact iff_of_false hdependents hheld

/-- Between two variables, a chain of edges is a chain of records, read from the other end. A record
of a variable for itself makes no edge; a chain can leave it out. -/
theorem transGen_adj_recording_iff (hne : x ≠ y) : TransGen (recording records).held.Adj y x ↔
      TransGen (fun captured holder => (captured, holder) ∈ records) x y := by
  rw [← Relation.transGen_swap]
  constructor
  · exact TransGen.mono (fun _ _ hadj => (adj_recording_iff.1 hadj).1) x y
  · intro hchain
    have hstep : ∀ a b, (a, b) ∈ records →
        ReflTransGen (Function.swap (recording records).held.Adj) a b := by
      intro a b hrecord
      by_cases hself : a = b
      · rw [hself]
      · exact .single (adj_recording_iff.2 ⟨hrecord, hself⟩)
    have hwalk := Relation.reflTransGen_closed hstep x y hchain.to_reflTransGen
    exact (Relation.reflTransGen_iff_eq_or_transGen.1 hwalk).resolve_left hne.symm

/-- What a variable holds on to and who holds on to it are the two directions of one relation: a
chain of records leads from the one to the other. Neither query ever answers with the variable that
it was asked about, and both end on records that run in circles, since the search visits each
variable once. -/
theorem queries_iff_chain (records : List (Path × Path)) (x y : Path) :
    (y ∈ (recording records).dependentsOf x ↔ x ∈ (recording records).capturedBy y) ∧
    (x ∈ (recording records).capturedBy y ↔
      x ≠ y ∧ Relation.TransGen (fun captured holder => (captured, holder) ∈ records) x y) ∧
    x ∉ (recording records).dependentsOf x ∧ x ∉ (recording records).capturedBy x := by
  have hcaptured : ∀ x y, x ∈ (recording records).capturedBy y ↔
      x ≠ y ∧ Relation.TransGen (fun captured holder => (captured, holder) ∈ records) x y :=
    fun x y => Digraph.mem_closure_iff.trans (and_congr_right transGen_adj_recording_iff)
  have hconverse : (recording records).dependents.Adj =
      Function.swap (recording records).held.Adj := by
    funext a b
    exact propext (converse_recording records a b)
  have hdependents : ∀ x y, y ∈ (recording records).dependentsOf x ↔
      x ∈ (recording records).capturedBy y := by
    intro x y
    calc
      y ∈ (recording records).dependentsOf x
          ↔ y ≠ x ∧ Relation.TransGen (Function.swap (recording records).held.Adj) x y := by
            rw [dependentsOf, Digraph.mem_closure_iff, hconverse]
      _ ↔ x ≠ y ∧ Relation.TransGen (recording records).held.Adj y x := by
            rw [Relation.transGen_swap, ne_comm]
      _ ↔ x ∈ (recording records).capturedBy y := Digraph.mem_closure_iff.symm
  refine ⟨hdependents x y, hcaptured x y, ?_, ?_⟩
  · rw [hdependents, hcaptured]
    simp
  · rw [hcaptured]
    simp

end Captures
end Regions
