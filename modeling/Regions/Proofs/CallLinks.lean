import Mathlib.Data.Option.Basic
import Regions.Proofs.Calls
import Regions.Proofs.HeapBacking

/-!
# Pointers that are resolved

A pointer is resolved to a local variable if the slot of that variable is the only one that stands
for the same data as the pointer. Two lifetimes stand for the same data if each is stored in the
other. It plays no part why they are: a declaration or an assignment stores two lifetimes in each
other at once, but a call, which stores the data of every argument in that of every other, comes to
the same.

* `pointee?_eq_some_iff`: when a pointer is resolved, in any state;
* `CallLinks`: what is linked after a call;
* `pointee?_iff_linked`: when a pointer is resolved, after a call and after anything else.
-/

namespace Regions.Flow

open Relation

variable {env : Env} {recur : Recur} {s s₀ s' : State} {id : NodeId} {function : Path}
  {operands : List NodeId} {arguments : List Argument}

/-! ## Links -/

/-- The slots that stand for the same data are one slot only. -/
theorem slots_eq_singleton_iff {graph : Outlives} {l home : Lifetime} :
    (graph.equivalents l).toList.filter Lifetime.isSlot = [home] ↔
      ∀ k, k = home ↔ k.isSlot = true ∧ k ≠ l ∧ TransGen graph.Linked l k := by
  have hmem : ∀ k, k ∈ (graph.equivalents l).toList.filter Lifetime.isSlot ↔
      k.isSlot = true ∧ k ≠ l ∧ TransGen graph.Linked l k := fun k => by
    rw [List.mem_filter, Std.ExtTreeSet.mem_toList, Outlives.mem_equivalents_iff, and_comm]
  have hnodup : ((graph.equivalents l).toList.filter Lifetime.isSlot).Nodup := by
    refine List.Nodup.filter _ (Std.ExtTreeSet.distinct_toList.imp fun {a b} hne heq => ?_)
    exact hne (Std.compare_eq_iff_eq.2 heq)
  simp only [← hmem]
  constructor
  · intro hslots k
    rw [hslots, List.mem_singleton]
  · intro hslots
    have hperm := (List.perm_ext_iff_of_nodup hnodup (List.nodup_singleton home)).2
      fun k => by rw [← hslots, List.mem_singleton]
    exact List.perm_singleton.1 hperm

/-- The pointer is a variable that nobody else can change, and of all slots `home` is the only one
to which a chain of links leads from the data of the variable. -/
def ResolvesTo (env : Env) (s : State) (link : Lifetime → Lifetime → Prop) (pointer : Extent)
    (home : Lifetime) : Prop :=
  env.options.resolveAliases = true ∧ pointer.slot.isSlot = true ∧
    s.context.isExposed pointer.slot.path = false ∧
    ∃ current, s.frame.lookup? pointer.slot.path = some current ∧
    current.value.isNone = false ∧
      ∀ k, k = home ↔ k.isSlot = true ∧ k ≠ current.value ∧ TransGen link current.value k

theorem pointee?_eq_some_iff {pointer : Extent} {home : Lifetime} :
    pointee? env s pointer = some home ↔
    ResolvesTo env s s.context.graph.Linked pointer home := by
  unfold pointee? ResolvesTo
  simp only [Option.bind_eq_bind, Option.bind_eq_some_iff, Option.guard_eq_some', Bool.and_eq_true,
    Bool.not_eq_true', and_assoc, exists_const, ← slots_eq_singleton_iff]
  -- The conditions on the pointer are the same on both sides.
  refine and_congr_right' (and_congr_right' (and_congr_right' (exists_congr fun current => ?_)))
  refine and_congr_right' (and_congr_right' ?_)
  split <;> simp_all

/-- A pointer whose data is linked to nothing is not resolved. -/
theorem pointee?_eq_none_of_not_linked {pointer current : Extent}
    (hlookup : s.frame.lookup? pointer.slot.path = some current)
    (hlinked : ∀ k, ¬ s.context.graph.Linked current.value k) :
    pointee? env s pointer = none := by
  refine Option.eq_none_iff_forall_ne_some.2 fun home hhome => ?_
  obtain ⟨-, -, -, found, hfound, -, hhomes⟩ := pointee?_eq_some_iff.1 hhome
  cases hlookup.symm.trans hfound
  obtain ⟨-, -, hwalk⟩ := (hhomes home).1 rfl
  obtain ⟨first, hfirst, -⟩ := TransGen.head'_iff.1 hwalk
  exact hlinked first hfirst

/-! ## Calls -/

/-- Each of the lifetimes was stored in the other before a call, or is so by the call. -/
def CallLinks (graph : Outlives) (arguments : List Argument) (a b : Lifetime) : Prop :=
  (graph.Holds a b ∨ b ≠ a ∧ CallStores arguments a b) ∧
    (graph.Holds b a ∨ b ≠ a ∧ CallStores arguments b a)

/-- Whatever a call stores, it stores between lifetimes of data. -/
theorem relevant_iff_of_callStores (harguments : Runs (operands.mapM (argument env)) s arguments s)
    {a b : Lifetime} : CallStores arguments a b ∧ Outlives.Relevant b a ↔ b ≠ a ∧
    CallStores arguments a b := by
  constructor
  · rintro ⟨hstores, hne, -⟩
    exact ⟨hne, hstores⟩
  · rintro ⟨hne, i, j, giver, taker, hij, hi, hj, htracked, hb, ha⟩
    exact ⟨⟨i, j, giver, taker, hij, hi, hj, htracked, hb, ha⟩, hne,
      isNone_of_mem_values harguments hi hb, isNone_of_mem_values harguments hj ha⟩

/-- In any state a pointer is resolved to the one slot, if there is just one, to which links lead
from its data, whoever made them. After a call two lifetimes are linked if each of them was stored
in the other before, or is stored there by the call on its own account; in particular the data of
any two different arguments that carry references is linked. The variables keep their extents, and a
pointer is resolved after the call along these links.

Any other storing links its two lifetimes if the opposite storing is there already, and no others;
the edges that flow back in a loop are such storings. Where branches meet and at the entry into a
loop, variables get versions that are linked to nothing, so that no pointer is resolved there which
has such a version. -/
theorem pointee?_iff_linked (hoperands : Runs (operands.forM (recur .value)) s () s₀)
    (harguments : Runs (operands.mapM (argument env)) s₀ arguments s₀)
    (hcall : Runs (call env recur id function operands) s () s') :
    (∀ state pointer home, pointee? env state pointer = some home ↔
      ResolvesTo env state state.context.graph.Linked pointer home) ∧
    (∀ path, s'.frame.lookup? path = s₀.frame.lookup? path) ∧
    (∀ a b, s'.context.graph.Linked a b ↔ CallLinks s₀.context.graph arguments a b) ∧
    (∀ (i j : Nat) (first second : Argument), i ≠ j → arguments[i]? = some first →
      arguments[j]? = some second → first.tracked = true → second.tracked = true →
      ∀ a ∈ first.values, ∀ b ∈ second.values, b ≠ a →
      CallLinks s₀.context.graph arguments a b) ∧
    (∀ pointer home, pointee? env s' pointer = some home ↔
      ResolvesTo env s' (CallLinks s₀.context.graph arguments) pointer home) ∧
    (∀ stored container ty? state state', Runs (store stored container ty?) state () state' →
      ∀ a b, state'.context.graph.Linked a b ↔ state.context.graph.Linked a b ∨
        state.context.graph.Holds stored container ∧ Outlives.Relevant stored container ∧
          (a = container ∧ b = stored ∨ a = stored ∧ b = container)) ∧
    ∀ program decls options owner function context node state,
      Precedes program decls options context owner →
      ComesTo (.ofFunction decls options owner function) function context node state →
      (∀ depth condition positive negative? state₁ state',
        Runs (analyzeNode (.ofFunction decls options owner function) depth .value condition) state
        () state₁ → Runs (cond (.ofFunction decls options owner function)
          (analyzeNode (.ofFunction decls options owner function) depth) node condition
          positive negative?) state () state' →
        ∀ (pointer extent : Extent), state'.frame.lookup? pointer.slot.path = some extent →
          state₁.frame.lookup? pointer.slot.path ≠ some extent →
          pointee? (.ofFunction decls options owner function) state' pointer = none) ∧
      ∀ condition body entries state', Runs
        (loopEntry (.ofFunction decls options owner function) condition body) state
        entries state' →
        ∀ entry ∈ entries, ∀ pointer : Extent, pointer.slot.path = entry.1 →
          pointee? (.ofFunction decls options owner function) state' pointer = none := by
  obtain ⟨t, arguments', s₁, hoperands', harguments', ⟨graph, rfl, hadds⟩, hgraph, bundle,
    hfinishes⟩ := runs_call hcall
  obtain ⟨-, rfl⟩ := hoperands.det hoperands'
  obtain ⟨rfl, -⟩ := harguments.det harguments'
  change s'.context.graph = graph at hgraph
  have hlinks : ∀ a b, s'.context.graph.Linked a b ↔
      CallLinks s₀.context.graph arguments a b := by
    intro a b
    rw [Outlives.Linked, CallLinks, hgraph, hadds a b, hadds b a,
      relevant_iff_of_callStores harguments, relevant_iff_of_callStores harguments]
    grind
  have hlinked : s'.context.graph.Linked = CallLinks s₀.context.graph arguments := by
    funext a b
    exact propext (hlinks a b)
  refine ⟨fun _ _ _ => pointee?_eq_some_iff, fun path => by rw [hfinishes.frame], hlinks, ?_,
    fun pointer home => ?_, fun stored container ty? state state' hstore a b => ?_,
    fun program decls options owner function context node state hprecedes hcomes => ?_⟩
  · intro i j first second hne hi hj hfirst hsecond a ha b hb hab
    exact ⟨.inr ⟨hab, j, i, second, first, Ne.symm hne, hj, hi, hfirst, hb, ha⟩,
      .inr ⟨hab, i, j, first, second, hne, hi, hj, hsecond, ha, hb⟩⟩
  · rw [pointee?_eq_some_iff, hlinked]
  · cases runs_store_iff.1 hstore
    exact Outlives.linked_store_iff
  · -- The versions that variables get where executions meet are linked to nothing.
    obtain ⟨hpos, hs⟩ := inv_fresh_of_comesTo hprecedes hcomes
    refine ⟨fun depth condition positive negative? state₁ state' hcondition hcond pointer extent
        hlookup hchanged => ?_,
      fun condition body entries state' hentry entry hmem pointer hpointer => ?_⟩
    · obtain ⟨-, hlone⟩ := (lone_of_cond hs hpos hcondition hcond).1 _ extent hlookup hchanged
      exact pointee?_eq_none_of_not_linked hlookup fun k hlinked => hlone k hlinked.1 hlinked.2
    · obtain ⟨⟨slot, hcurrent⟩, -, hlone⟩ := lone_of_loopEntry hs hpos hentry entry hmem
      rw [← hpointer] at hcurrent
      exact pointee?_eq_none_of_not_linked hcurrent fun k hlinked => hlone k hlinked.1 hlinked.2

/-- `x = new int; p = new int*; swap(&x, p); *p`. -/
def swapping : List Item := [
  .signature "swap"
    [⟨"a", .pointer (.pointer .int), true⟩, ⟨"b", .pointer (.pointer .int), true⟩] .void,
  .function "f" [] (.pointer .int) (.block [
    .declare "x" (.newDefault .int),
    .declare "p" (.newDefault (.pointer .int)),
    .call "swap" [.addressOf (.var "x"), .var "p"], .dereference (.var "p")])]

/-- The data of `p`, in its slot. -/
def swapped : Extent :=
  ⟨⟨⟨["f", "$block_0", "p"]⟩, 0, .alias, .localValue⟩,
    .root ⟨["f", "$block_0", "p"]⟩ .localSlot⟩

/-- The function is accepted: after `swap(&x, p)` the pointer `p` is resolved to `x`, to which it
was not bound before, so that `*p` is taken to be what was in `x`. -/
theorem resolvesTo_swapping : ∃ assembly results owner function s s₀ arguments s',
      Program.ofItems swapping = .ok assembly ∧
      analyze assembly.program assembly.declarations {} = .ok results ∧
      ComesTo (.ofFunction assembly.declarations {} owner function) function .initial ⟨7⟩ s ∧
      Runs ([⟨5⟩, ⟨6⟩].forM
        (analyzeNode (.ofFunction assembly.declarations {} owner function) 3 .value)) s () s₀ ∧
      Runs
      ([⟨5⟩, ⟨6⟩].mapM (argument (.ofFunction assembly.declarations {} owner function)))
        s₀ arguments s₀ ∧
      Runs (call (.ofFunction assembly.declarations {} owner function)
        (analyzeNode (.ofFunction assembly.declarations {} owner function) 3) ⟨7⟩
        (.single "swap") [⟨5⟩, ⟨6⟩]) s () s' ∧
      pointee? (.ofFunction assembly.declarations {} owner function) s₀ swapped = none ∧
      pointee? (.ofFunction assembly.declarations {} owner function) s' swapped =
        some (.root ⟨["f", "$block_0", "x"]⟩ .localSlot) ∧
      ResolvesTo (.ofFunction assembly.declarations {} owner function) s'
        (CallLinks s₀.context.graph arguments) swapped
        (.root ⟨["f", "$block_0", "x"]⟩ .localSlot) := by
  have h : AcceptsAt swapping ⟨7⟩ fun env s =>
      ∃ s₀, Runs ([⟨5⟩, ⟨6⟩].forM (analyzeNode env 3 .value)) s () s₀ ∧
        pointee? env s₀ swapped = none ∧
      ∃ arguments s₁, Runs ([⟨5⟩, ⟨6⟩].mapM (argument env)) s₀ arguments s₁ ∧
      ∃ s',
      Runs (call env (analyzeNode env 3) ⟨7⟩ (.single "swap") [⟨5⟩, ⟨6⟩]) s () s' ∧
        pointee? env s' swapped = some (.root ⟨["f", "$block_0", "x"]⟩ .localSlot) := by
    decide +kernel
  obtain ⟨assembly, hitems, results, haccepted, owner, -, -, function, -, s, hcomes, s₀,
    hoperands, hbefore, arguments, _, harguments, s', hcall, hafter⟩ := h
  obtain ⟨rfl, -⟩ := runs_arguments harguments
  obtain ⟨-, -, -, -, hiff, -⟩ := pointee?_iff_linked hoperands harguments hcall
  exact ⟨assembly, results, owner, function, s, _, arguments, s', hitems, haccepted,
    hcomes, hoperands, harguments, hcall, hbefore, hafter, (hiff _ _).1 hafter⟩

end Regions.Flow
