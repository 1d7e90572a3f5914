import Regions.Proofs.Freshness

/-!
# Known regions

A region of storage is made in one step and becomes known in another. No rule ever uses a region
that is not known yet: the regions which results and storings speak of are those that the analysis
has listed.

* `registered`: the discipline of known regions;
* `lasts_regionsOnly`: only regions are listed;
* `ProgramFlow.Mentions`: the lifetimes that the results of a program speak of;
* `isRoot_iff_of_mentions`: of these, the listed ones are the regions.
-/

namespace Regions

/-- The results speak of the lifetime: it belongs to data or storage of an analysed node, or to a
storing. -/
inductive ProgramFlow.Mentions (results : ProgramFlow) (l : Lifetime) : Prop
  | value {ref : NodeRef} {flow : Flow.NodeFlow} {path : Path} {extent : Extent}
      (hflow : results.flow? ref = some flow) (hextent : flow.bundle[path]? = some extent)
      (hvalue : extent.value = l)
  | slot {ref : NodeRef} {flow : Flow.NodeFlow} {path : Path} {extent : Extent}
      (hflow : results.flow? ref = some flow) (hextent : flow.bundle[path]? = some extent)
      (hslot : extent.slot = l)
  | storing (hoccurs : Flow.Occurs results.context.graph l)

namespace Flow

variable {env : Env} {context : Context} {s s' : State}

/-! ## The discipline -/

/-- A lifetime that is no region, or a known one. -/
structure Registered (s : State) (l : Lifetime) : Prop where
  slotted : l.Slotted
  known : l.role = .root → l = .heap ∨ l ∈ s.context.roots

namespace Registered

variable {l : Lifetime}

theorem later (hgrows : Grows s s') (h : Registered s l) : Registered s' l :=
  { h with known := fun hroot => (h.known hroot).imp_right (hgrows.roots l) }

theorem of_role (hslotted : l.Slotted) (hrole : l.role ≠ .root) : Registered s l :=
  ⟨hslotted, fun hroot => absurd hroot hrole⟩

theorem of_mem {path : Path} {origin : Origin} (h : .root path origin ∈ s.context.roots) :
    Registered s (.root path origin) :=
  ⟨Lifetime.slotted_root _ _, fun _ => .inr h⟩

theorem heap : Registered s .heap := ⟨Lifetime.slotted_root _ _, fun _ => .inl rfl⟩

end Registered

/-- Storings are between known regions, and lifetimes that are none. -/
def registered (env : Env) (context : Context) : Discipline env where
  Valid := fun _ => Registered
  Holder := fun _ => Registered
  Edge := fun _ s c x => Registered s c ∧ Registered s x
  Named := fun _ => True
  Bare := fun _ => True
  base := context.rebound.length
  least := 0
  valid_later := fun hgrows _ h => h.later hgrows
  edge_later := fun hgrows _ h => ⟨h.1.later hgrows, h.2.later hgrows⟩
  edge := fun hc hx _ _ => ⟨hc, hx⟩
  edge_heap := fun hx _ => ⟨.heap, hx⟩
  holder_of_valid := fun h => h
  holder_of_edge := fun _ h => h.2
  slotted := fun h => h.slotted
  named_of_slot := fun _ _ => trivial
  valid_none := .of_role Lifetime.slotted_none (by simp [Lifetime.none])
  valid_temp := fun _ _ _ hrole => .of_role (Lifetime.slotted_of_origin (by simp)) hrole
  valid_region := fun _ _ _ _ h => .of_mem h
  valid_variable := fun _ _ h => .of_mem h
  valid_version := fun _ _ => .of_role (Lifetime.slotted_of_origin (by simp)) (by simp)

/-! ## Only regions are listed -/

/-- All that is listed are regions. -/
def RegionsOnly (context : Context) : Prop :=
  ∀ l ∈ context.roots, l.role = .root

theorem RegionsOnly.insert (h : RegionsOnly context) (path : Path) (origin : Origin) :
    RegionsOnly { context with roots := context.roots.insert (.root path origin) } := by
  intro l hl
  rcases Std.ExtTreeSet.mem_insert.1 hl with heq | hl
  · rw [← Std.LawfulEqCmp.eq_of_compare heq]
    rfl
  · exact h l hl

section Transitions

variable {X : Setting} {p p' : Progress X}

theorem Step.regionsOnly (h : Step X p s p' s') (hs : RegionsOnly s.context) :
    RegionsOnly s'.context := by
  cases h with
  | region path origin => exact hs.insert path origin
  | parameter _ _ _ hrun =>
    obtain ⟨-, rfl⟩ | ⟨-, rfl⟩ := runs_declareParameterMember hrun
    · exact (hs.insert _ _).insert _ _
    · exact hs.insert _ _
  | _ => exact hs

theorem lasts_regionsOnly : Lasts X (fun _ _ => True) fun _ s => RegionsOnly s.context where
  step hstep _ hs := hstep.regionsOnly hs
  enter _ _ hs := hs
  leave _ _ _ _ _ hs := hs
  join _ _ _ _ hs := hs
  flowBack _ _ _ _ _ _ _ hs := hs

end Transitions

theorem regionsOnly_of_runs {function : Function}
    (hrun : Runs (analyzeFunction env function) (.start context env.owner.nodes.size) () s')
    (h : RegionsOnly context) : RegionsOnly s'.context := by
  obtain ⟨p', -, hsteps⟩ := steps_of_analyzeFunction hrun
  exact lasts_regionsOnly.steps hsteps h

/-! ## One function after the other -/

/-- What is known about regions when some of the functions have been analysed. -/
structure Listed (results : ProgramFlow) : Prop where
  heap : .heap ∈ results.context.roots
  regionsOnly : RegionsOnly results.context
  slotted : ∀ l, Occurs results.context.graph l → l.Slotted
  known : ∀ l, results.Mentions l → l.role = .root → l ∈ results.context.roots

namespace Listed

variable {decls : Declarations} {options : Options} {owner : Owner} {results next : ProgramFlow}

theorem initial : Listed { owners := ∅, context := .initial } where
  heap := by simp [Context.initial]
  regionsOnly := by
    intro l hl
    have hheap : compare Lifetime.heap l = .eq := by simpa [Context.initial] using hl
    rw [← Std.LawfulEqCmp.eq_of_compare hheap]
    rfl
  slotted := by
    rintro l ⟨k, hk | hk⟩
    · exact absurd hk (Digraph.not_adj_empty l k)
    · exact absurd hk (Digraph.not_adj_empty k l)
  known := by
    rintro l (⟨hflow, -, -⟩ | ⟨hflow, -, -⟩ | ⟨k, hk | hk⟩)
    · simp [ProgramFlow.flow?] at hflow
    · simp [ProgramFlow.flow?] at hflow
    · exact absurd hk (Digraph.not_adj_empty l k)
    · exact absurd hk (Digraph.not_adj_empty k l)

/-- A result is one of the function that was analysed last, or was there before. -/
theorem flow?_insert {index : Nat} {recorded : OwnerFlow} {ref : NodeRef} {flow : NodeFlow}
    (h : ({ owners := results.owners.insert index recorded, context } : ProgramFlow).flow?
      ref = some flow) :
    recorded.get? ref.node = some (some flow) ∨ results.flow? ref = some flow := by
  simp only [ProgramFlow.flow?, Std.ExtTreeMap.getElem?_insert] at h ⊢
  split at h
  · refine .inl ?_
    cases hget : recorded.get? ref.node <;> simp_all
  · exact .inr h

/-- The analysis of one more function uses known regions only. -/
theorem function {function : Function} (h : Listed results)
    (hrun : RunsOwner decls options owner function results.context s') : Listed
    { owners := results.owners.insert owner.id.index s'.recorded, context := s'.context } := by
  set D := registered (.ofFunction decls options owner function) results.context
  -- What was known before is all right, since regions stay known.
  have hbefore : ∀ s : State, Grows (.start results.context owner.nodes.size) s → ∀ l,
      results.Mentions l → l.Slotted → Registered s l :=
    fun s hgrows l hl hslotted =>
      ⟨hslotted, fun hroot => .inr (hgrows.roots l (h.known l hl hroot))⟩
  have hstart : D.Inv none (.start results.context owner.nodes.size) := by
    refine Discipline.inv_start rfl (Nat.zero_le _) fun c x hx => ⟨?_, ?_⟩
    · have hc : Occurs results.context.graph c := ⟨x, .inl hx⟩
      exact hbefore _ (Grows.refl _) c (.storing hc) (h.slotted c hc)
    · have hx' : Occurs results.context.graph x := ⟨c, .inr hx⟩
      exact hbefore _ (Grows.refl _) x (.storing hx') (h.slotted x hx')
  obtain ⟨hnames, hparameters⟩ :=
    Discipline.NamesVariables.of_forall (D := D) (fun _ => trivial) fun _ => trivial
  have hend := Discipline.inv_of_analyzeFunction hnames (hparameters _) hstart hrun
  have hgrows := grows_analyzeFunction _ _ _ _ _ hrun
  have hheap : .heap ∈ s'.context.roots := hgrows.roots _ h.heap
  have hoccurs : ∀ l, Occurs s'.context.graph l → Registered s' l := by
    rintro l ⟨k, hk | hk⟩
    · exact (hend.graph l k hk).1
    · exact (hend.graph k l hk).2
  have hknown : ∀ l, Registered s' l → l.role = .root → l ∈ s'.context.roots := by
    intro l hl hroot
    rcases hl.known hroot with rfl | hmem
    · exact hheap
    · exact hmem
  refine ⟨hheap, regionsOnly_of_runs hrun h.regionsOnly, fun l hl => (hoccurs l hl).slotted,
    fun l hl hroot => ?_⟩
  cases hl with
  | value hflow hextent hvalue =>
    rcases flow?_insert hflow with hnew | hold
    · refine hknown l (hvalue ▸ ?_) hroot
      exact (hend.recorded _ _ (State.flowAt_eq_some_iff.2 hnew) _ _ hextent).value
    · exact hgrows.roots l (h.known l (.value hold hextent hvalue) hroot)
  | slot hflow hextent hslot =>
    rcases flow?_insert hflow with hnew | hold
    · refine hknown l (hslot ▸ ?_) hroot
      exact (hend.recorded _ _ (State.flowAt_eq_some_iff.2 hnew) _ _ hextent).slot
    · exact hgrows.roots l (h.known l (.slot hold hextent hslot) hroot)
  | storing hl => exact hknown l (hoccurs l hl) hroot

theorem run {owners : List Owner} (h : Listed results)
    (hrun : owners.foldlM (analyzeOwner decls options) results = .ok next) : Listed next :=
  foldlM_induction (fun _ _ _ _ _ _ hbefore hruns => hbefore.function hruns) h hrun

end Listed

/-- Only regions are listed. Of the lifetimes that the results speak of, the listed ones are exactly
the regions. -/
theorem isRoot_iff_of_mentions {program : Program} {decls : Declarations} {options : Options}
    {results : ProgramFlow} (h : analyze program decls options = .ok results) :
    (∀ l ∈ results.context.roots, l.role = .root) ∧
      ∀ l, results.Mentions l → (results.isRoot l = true ↔ l.role = .root) := by
  have hlisted := Listed.initial.run (foldlM_of_analyze h)
  refine ⟨hlisted.regionsOnly, fun l hl => ⟨fun hmem => ?_, fun hroot => ?_⟩⟩
  · exact hlisted.regionsOnly l (Std.ExtTreeSet.contains_iff_mem.1 hmem)
  · exact Std.ExtTreeSet.contains_iff_mem.2 (hlisted.known l hl hroot)

/-- `peek(p : ptr ptr int) { q = *p }`. -/
def peeking : List Item := [
  .function "peek" [{ name := "p", ty := .pointer (.pointer .int) }] .void
    (.block [.declare "q" (.dereference (.var "p"))])]

/-- What `q` stands for, and the region that is read through `p`. -/
def peeked : Lifetime × Lifetime :=
  (.first ⟨["peek", "$block_0", "q"]⟩, .root ⟨["peek", "$deref_1"]⟩ .temporary)

/-- The region that is read is listed, and the data of `q` is not. -/
theorem isRoot_iff_of_peeking : ∃ assembly results, Program.ofItems peeking = .ok assembly ∧
      analyze assembly.program assembly.declarations {} = .ok results ∧
      results.context.graph.Holds peeked.1 peeked.2 ∧
      results.isRoot peeked.2 = true ∧ results.isRoot peeked.1 = false := by
  have h : Accepts peeking {} fun _ results => results.context.graph.Holds peeked.1 peeked.2 := by
    decide +kernel
  obtain ⟨assembly, hitems, results, haccepted, hholds⟩ := h
  obtain ⟨-, hroots⟩ := isRoot_iff_of_mentions haccepted
  refine ⟨assembly, results, hitems, haccepted, hholds, ?_, ?_⟩
  · exact (hroots peeked.2 (.storing ⟨_, .inr hholds⟩)).2 rfl
  · have halias := hroots peeked.1 (.storing ⟨_, .inl hholds⟩)
    exact Bool.eq_false_iff.2 fun hroot => absurd (halias.1 hroot) (by decide)

end Flow
end Regions
