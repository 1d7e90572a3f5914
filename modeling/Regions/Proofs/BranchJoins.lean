import Regions.Proofs.HeapBacking

/-!
# Variables after branches

Branches are analysed one after the other, each in a scope of its own. What they change about the
variables around them is merged afterwards: a variable that either branch has changed gets a new
version, which holds what the variable is bound to at the end of each branch. The new version is the
join of the two and no more, even though it is stored in the slot of its variable, on which the data
of other variables may rest, and though the other variables are merged before and after it.

* `Unseen`: a lifetime that nothing knows of yet;
* `IsJoin`: a lifetime that rests on two others, on what they rest on, and on nothing else;
* `lookup?_after_branches`: what every variable is bound to after branches.
-/

namespace Regions

/-- What a lifetime rests on comes from what it holds. -/
theorem Outlives.mem_supportOf_iff_of_holds {G : Outlives} {m l : Lifetime}
    {data : Lifetime → Prop} (h : ∀ k, G.Holds m k ↔ data k) :
    l ∈ G.supportOf m ↔ l ≠ m ∧ ∃ k, data k ∧ (l = k ∨ l ∈ G.supportOf k) := by
  rw [mem_supportOf_iff, Relation.TransGen.head'_iff]
  refine and_congr_right fun _ => exists_congr fun k => ?_
  rw [h k]
  exact and_congr_right fun _ => reaches_iff

namespace Flow

variable {s s' : State} {id : NodeId} {m vp vn : Lifetime}

/-- No storing, no visible variable and no result has the lifetime. -/
structure Unseen (s : State) (l : Lifetime) : Prop where
  graph : ¬ Occurs s.context.graph l
  frame : ∀ path extent, s.frame.lookup? path = some extent → extent.value ≠ l ∧
    extent.slot ≠ l
  recorded : ∀ node flow (path : Path) (extent : Extent), s.flowAt node = some flow →
    flow.bundle[path]? = some extent → extent.value ≠ l ∧ extent.slot ≠ l

theorem Discipline.Inv.unseen {env : Env} {context : Context} (h : (fresh env context).Inv none s)
    (hpos : 0 < s.context.nextVersion) (hversion : s.context.nextVersion ≤ m.version) :
    Unseen s m := by
  have hne : ∀ {l}, l.version = 0 ∨ l.version < s.context.nextVersion → l ≠ m := by
    rintro l hl rfl
    rcases hl with hzero | hlt
    · exact absurd hversion (by rw [hzero]; exact Nat.not_le_of_lt hpos)
    · exact Nat.lt_irrefl _ (Nat.lt_of_lt_of_le hlt hversion)
  refine ⟨fun hoccurs => hne (h.dated m hoccurs).2 rfl, fun path extent hlookup => ?_,
    fun node flow path extent hflow hextent => ?_⟩
  · have hhoused := h.frame path extent hlookup
    exact ⟨hne hhoused.valid.version, hne hhoused.admits.slot.version⟩
  · have hadmits := h.recorded node flow hflow path extent hextent
    exact ⟨hne hadmits.value.version, hne hadmits.slot.version⟩

/-- The lifetime rests on two others and on what these rest on, and stands for nothing but
itself. -/
structure IsJoin (graph : Outlives) (m vp vn : Lifetime) : Prop where
  supportOf : ∀ l, l ∈ graph.supportOf m ↔
    l ≠ m ∧ (l = vp ∨ l = vn ∨ l ∈ graph.supportOf vp ∨ l ∈ graph.supportOf vn)
  equivalents : graph.equivalents m = ∅

theorem isJoin_of_holds {graph : Outlives} (hholds : ∀ k, graph.Holds m k ↔ k = vp ∨ k = vn)
    (hlone : Lone graph m) : IsJoin graph m vp vn where
  supportOf l := by
    rw [Outlives.mem_supportOf_iff_of_holds hholds]
    refine and_congr_right fun _ => ?_
    constructor
    · rintro ⟨k, rfl | rfl, rfl | hl⟩
      · exact .inl rfl
      · exact .inr (.inr (.inl hl))
      · exact .inr (.inl rfl)
      · exact .inr (.inr (.inr hl))
    · rintro (rfl | rfl | hl | hl)
      · exact ⟨_, .inl rfl, .inl rfl⟩
      · exact ⟨_, .inr rfl, .inl rfl⟩
      · exact ⟨_, .inl rfl, .inr hl⟩
      · exact ⟨_, .inr rfl, .inr hl⟩
  equivalents := hlone.equivalents_eq

/-- When the analysis of a function comes to branches and they succeed, then no variable that was
not visible before them is visible afterwards, and none has gone. A variable with data that no
branch has changed is bound as before. If a branch has changed it, then it is bound, in its old
slot, to a version that nothing knew of at the end of the branches, the join of what it was bound to
at the end of each branch: what the branch has made of it or, where the branch has left it alone or
is not there, what it was before. -/
theorem lookup?_after_branches {program : Program} {decls : Declarations} {options : Options}
    {owner : Owner} {function : Function} {context : Context} {depth : Nat}
    {condition positive : NodeId} {negative? : Option NodeId}
    (hprecedes : Precedes program decls options context owner)
    (hcomes : ComesTo (.ofFunction decls options owner function) function context id s)
    (hcond : Runs (cond (.ofFunction decls options owner function)
      (analyzeNode (.ofFunction decls options owner function) depth) id condition
      positive negative?) s () s') : ∃ s₁ positiveEnd negativeEnd,
      RunsBranches (.ofFunction decls options owner function) depth condition positive negative?
        s s₁ positiveEnd negativeEnd ∧
      (∀ q, s'.frame.lookup? q = none ↔ s₁.frame.lookup? q = none) ∧
      ∀ q before, s₁.frame.lookup? q = some before → before.value.isNone = false →
        (q ∉ positiveEnd.frame.rebindings ∧ q ∉ negativeEnd.frame.rebindings →
          s'.frame.lookup? q = some before) ∧
        (q ∈ positiveEnd.frame.rebindings ∨ q ∈ negativeEnd.frame.rebindings →
          ∃ m, s'.frame.lookup? q = some ⟨m, before.slot⟩ ∧ m.path = q ∧
          m.origin = .localValue ∧ Unseen { negativeEnd with frame := s₁.frame } m ∧
            IsJoin s'.context.graph m (positiveEnd.frame.rebindings[q]?.getD before).value
              (negativeEnd.frame.rebindings[q]?.getD before).value) := by
  obtain ⟨hpos, hs⟩ := inv_fresh_of_comesTo hprecedes hcomes
  obtain ⟨s₁, positiveEnd, negativeEnd, s₃, hbranches, hmerges, hend⟩ :=
    merges_of_cond hs hcond
  obtain ⟨hframe, -, hspares⟩ := hmerges.finish hend
  have hpos' := Nat.lt_of_lt_of_le hpos hmerges.grows.nextVersion
  have hrenewed := fun {q} => hmerges.renews.lone (q := q) (hmerges.renewable hpos _)
  have hmem : ∀ q, q ∈ (positiveEnd.frame.rebindings ∪ negativeEnd.frame.rebindings).keys ↔
      q ∈ positiveEnd.frame.rebindings ∨ q ∈ negativeEnd.frame.rebindings := by simp
  refine ⟨s₁, positiveEnd, negativeEnd, hbranches, fun q => ?_,
    fun q before hbefore hsome => ⟨?_, ?_⟩⟩
  · rw [hframe]
    by_cases hq : q ∈ (positiveEnd.frame.rebindings ∪ negativeEnd.frame.rebindings).keys
    · obtain ⟨before, version, hold, hnew, -⟩ := hrenewed hq
      dsimp only at hold
      simp [hold, hnew]
    · rw [hmerges.renews.kept hq]
  · rintro ⟨hpositive, hnegative⟩
    rw [hframe, hmerges.renews.kept (by simp [hmem, hpositive, hnegative])]
    exact hbefore
  · intro hq
    obtain ⟨found, m, hfound, hlookup, horigin, hversion, hlone, hholds⟩ :=
      hrenewed ((hmem q).2 hq)
    cases hbefore.symm.trans hfound
    have hspares := hspares m horigin hversion (Nat.lt_of_lt_of_le hpos' hversion)
    -- Either side has data, be it that from before the branches.
    have hdata : ∀ changes : PathMap Extent, (∀ extent, changes[q]? = some extent →
        extent.value.isNone = false) → (changes[q]?.getD before).value.isNone = false := by
      intro changes hchanges
      cases hget : changes[q]? with
      | none => exact hsome
      | some extent => exact hchanges extent hget
    have hpositive := hdata _ fun extent hget => (hmerges.data q extent (.inl hget)).2
    have hnegative := hdata _ fun extent hget => (hmerges.data q extent (.inr hget)).2
    refine ⟨m, hframe ▸ hlookup, ?_, horigin, hmerges.inv.unseen hpos' hversion,
      isJoin_of_holds (fun k => ?_) (hlone.spared hspares)⟩
    · exact ((hmerges.merged.frame q _ hlookup).own (by simp [Lifetime.isNone, horigin])).1
    · rw [(hspares k).1, hholds k]
      simp only [sides, List.mem_cons, List.not_mem_nil, or_false]
      constructor
      · exact And.left
      · rintro (rfl | rfl)
        · exact ⟨.inl rfl, hpositive⟩
        · exact ⟨.inr rfl, hnegative⟩

/-- `x = 0; y = 0; p = &x; if true { p = &y; z = p }`. -/
def retargeting : List Item := [
  .function "f" [] .void (.block [
    .declare "x" (.literal (.int 0)),
    .declare "y" (.literal (.int 0)),
    .declare "p" (.addressOf (.var "x")),
    .cond (.literal (.bool true))
      (.block [.assign (.var "p") (.addressOf (.var "y")), .declare "z" (.var "p")]) none])]

/-- A version of the pointer in `retargeting`. -/
def pointerVersion (version : Nat) : Lifetime :=
  ⟨⟨["f", "$block_0", "p"]⟩, version, .alias, .localValue⟩

/-- After the branches the pointer is the join of its first two versions, and may lead to either
target. -/
theorem isJoin_of_retargeting : ∃ assembly results owner function s s' m,
      Program.ofItems retargeting = .ok assembly ∧
      analyze assembly.program assembly.declarations {} = .ok results ∧
      Precedes assembly.program assembly.declarations {} .initial owner ∧
      ComesTo (.ofFunction assembly.declarations {} owner function) function .initial ⟨15⟩ s ∧
      Runs (cond (.ofFunction assembly.declarations {} owner function)
        (analyzeNode (.ofFunction assembly.declarations {} owner function) 4) ⟨15⟩ ⟨7⟩
        ⟨14⟩ none) s () s' ∧
      s'.frame.lookup? ⟨["f", "$block_0", "p"]⟩ =
        some ⟨m, .root ⟨["f", "$block_0", "p"]⟩ .localSlot⟩ ∧
      IsJoin s'.context.graph m (pointerVersion 1) (pointerVersion 0) ∧
      .root ⟨["f", "$block_0", "x"]⟩ .localSlot ∈ s'.context.graph.supportOf m ∧
      .root ⟨["f", "$block_0", "y"]⟩ .localSlot ∈ s'.context.graph.supportOf m := by
  have h : AcceptsAt retargeting ⟨15⟩ fun env s =>
      ∃ s', Runs (cond env (analyzeNode env 4) ⟨15⟩ ⟨7⟩ ⟨14⟩ none) s () s' ∧
        .root ⟨["f", "$block_0", "x"]⟩ .localSlot ∈ s'.context.graph.supportOf
        (pointerVersion 0) ∧
        .root ⟨["f", "$block_0", "y"]⟩ .localSlot ∈ s'.context.graph.supportOf
        (pointerVersion 1) ∧
      ∃ s₁, Runs (analyzeNode env 4 .value ⟨7⟩) s () s₁ ∧
      s₁.frame.lookup? ⟨["f", "$block_0", "p"]⟩ =
        some ⟨pointerVersion 0, .root ⟨["f", "$block_0", "p"]⟩ .localSlot⟩ ∧
      ∃ positiveEnd, Runs (analyzeNode env 4 .value ⟨14⟩)
      { s₁ with frame := s₁.frame.child } () positiveEnd ∧
        positiveEnd.frame.rebindings[(⟨["f", "$block_0", "p"]⟩ : Path)]? =
          some ⟨pointerVersion 1, .root ⟨["f", "$block_0", "p"]⟩ .localSlot⟩ := by
    decide +kernel
  obtain ⟨assembly, hitems, results, haccepted, owner, -, honly, function, -, s, hcomes, s',
    hcond, hx, hy, t, hcondition, hbefore, t', hpositive, hchange⟩ := h
  have hprecedes := precedes_of_only assembly.declarations {} honly
  obtain ⟨s₁, positiveEnd, negativeEnd, hbranches, -, hbound⟩ :=
    lookup?_after_branches hprecedes hcomes hcond
  -- The branches go through the states of the test.
  obtain ⟨-, rfl⟩ := hcondition.det hbranches.condition
  obtain ⟨-, rfl⟩ := hpositive.det hbranches.positive
  have hmem : (⟨["f", "$block_0", "p"]⟩ : Path) ∈ t'.frame.rebindings :=
    Std.ExtTreeMap.mem_iff_isSome_getElem?.2 (by rw [hchange]; rfl)
  obtain ⟨m, hlookup, -, horigin, -, hjoin⟩ := (hbound _ _ hbefore rfl).2 (.inl hmem)
  rw [hbranches.negative, hchange, rebindings_child, Std.ExtTreeMap.getElem?_empty] at hjoin
  have hne : ∀ path, .root path .localSlot ≠ m := by
    rintro path rfl
    cases horigin
  refine ⟨assembly, results, owner, function, s, s', m, hitems, haccepted, hprecedes, hcomes,
    hcond, hlookup,
    hjoin, (hjoin.supportOf _).2 ⟨hne _, ?_⟩, (hjoin.supportOf _).2 ⟨hne _, ?_⟩⟩
  · exact .inr (.inr (.inr hx))
  · exact .inr (.inr (.inl hy))

end Flow
end Regions
