import Regions.Proofs.Freshness
import Regions.Proofs.Joins

/-!
# Joined lifetimes are not taken for heap memory

A lifetime counts as heap memory if it is that of a heap region, or stands for the same data as one.
Where executions meet, a new lifetime is made that holds what comes in from each side, and nothing
that comes in holds the new lifetime. It therefore stands for nothing but itself: even where
everything that comes in is heap memory, the joined lifetime does not count as such, and nothing
that is written through it is rejected.

* `Lone`: a lifetime that stands for nothing but itself;
* `RenewsAll.lone`: new versions of variables are such lifetimes;
* `Unbacked`: no heap memory is known behind a lifetime;
* `unbacked_of_join`: the lifetimes that branches and loops make are unbacked.
-/

namespace Regions.Flow

variable {env : Env} {recur : Recur} {s s₁ s' : State} {id : NodeId} {l : Lifetime}

/-! ## Lifetimes that stand for nothing else -/

/-- What the lifetime holds does not hold it. -/
def Lone (graph : Outlives) (l : Lifetime) : Prop :=
  ∀ k, graph.Holds l k → ¬ graph.Holds k l

theorem Lone.equivalents_eq {graph : Outlives} (h : Lone graph l) : graph.equivalents l = ∅ := by
  refine Std.ExtTreeSet.eq_empty_iff_forall_not_mem.2 fun k hk => ?_
  obtain ⟨-, hwalk⟩ := Outlives.mem_equivalents_iff.1 hk
  obtain ⟨first, ⟨hto, hback⟩, -⟩ := Relation.TransGen.head'_iff.1 hwalk
  exact h first hto hback

/-- What was stored from one graph to the next was not stored in the lifetime, and is not the
lifetime. -/
def Spares (G H : Outlives) (l : Lifetime) : Prop :=
  ∀ k, (H.Holds l k ↔ G.Holds l k) ∧ (H.Holds k l ↔ G.Holds k l)

theorem Spares.trans {G H I : Outlives} (h : Spares G H l) (h' : Spares H I l) : Spares G I l :=
  fun k => ⟨(h' k).1.trans (h k).1, (h' k).2.trans (h k).2⟩

theorem spares_of_adds {G H : Outlives} {E : Lifetime → Lifetime → Prop}
    (hadds : Outlives.Adds E G H) (hother : ∀ c x, E c x → c ≠ l ∧ x ≠ l) :
    Spares G H l := by
  intro k
  rw [hadds l k, hadds k l]
  refine ⟨⟨fun h => ?_, .inr⟩, fun h => ?_, .inr⟩
  · exact h.resolve_left fun hE => (hother l k hE.1).1 rfl
  · exact h.resolve_left fun hE => (hother k l hE.1).2 rfl

theorem Lone.spared {G H : Outlives} (h : Lone G l) (hspares : Spares G H l) : Lone H l :=
  fun k hk hk' => h k ((hspares k).1.1 hk) ((hspares k).2.1 hk')

/-- A write through what does not count as heap memory is taken note of, and accepted. -/
theorem runs_check {write : HeapWrite} (h : isHeapBacked s.context.graph write.container = false) :
    Runs (check env write) s ()
      (s.withContext { s.context with heapWrites := s.context.heapWrites ++ [write] }) := by
  refine runs_bind_iff.2 ⟨(), _, runs_modifyContext_iff.2 rfl, ?_⟩
  refine runs_bind_iff.2 ⟨_, _, runs_get_iff.2 ⟨rfl, rfl⟩, ?_⟩
  have hnone : write.violation? env.options s.context.graph = none := by
    simp [HeapWrite.violation?, h]
  dsimp only
  split
  · rename_i violation hviolation
    cases hnone.symm.trans hviolation
  · exact runs_pure_iff.2 ⟨rfl, rfl⟩

/-- No heap memory is known behind the lifetime, and whatever is written through it is accepted. -/
structure Unbacked (env : Env) (s : State) (l : Lifetime) : Prop where
  equivalents : s.context.graph.equivalents l = ∅
  backed : isHeapBacked s.context.graph l = false
  accepted : ∀ value new span field,
    ∃ s', Runs (assignMember env ⟨value, l⟩ new span field) s () s'

theorem Lone.unbacked (h : Lone s.context.graph l)
    (horigin : l.origin = .localValue ∨ l.origin = .temporary) : Unbacked env s l := by
  have hslot : l.isSlot = false := by
    rcases horigin with h | h <;> simp [Lifetime.isSlot, h]
  have hheap : l.isHeap = false := by
    rcases horigin with h | h <;> simp [Lifetime.isHeap, h]
  have hbacked : isHeapBacked s.context.graph l = false := by
    rw [isHeapBacked, h.equivalents_eq, hheap]
    rfl
  refine ⟨h.equivalents_eq, hbacked, fun value new span field => ?_⟩
  unfold assignMember
  simp only [hslot, Bool.false_eq_true, if_false]
  cases new.value.isNone with
  | true => exact ⟨s, runs_pure_iff.2 ⟨rfl, rfl⟩⟩
  | false =>
    exact ⟨_, runs_bind_iff.2 ⟨(), _, runs_check hbacked, runs_store_iff.2 rfl⟩⟩

/-! ## New versions of variables -/

/-- The data is that of the variable at `q` with the slot, from before version `next`. -/
structure Owns (next : Nat) (q : Path) (slot : Lifetime) (data : List Lifetime) : Prop where
  isSlot : slot.isSlot = true
  own : ∀ x ∈ data, x.isNone = false → x.path = q ∧ x.origin = .localValue
  dated : ∀ x ∈ data, x.version = 0 ∨ x.version < next

theorem Owns.slot_ne {next : Nat} {q : Path} {slot : Lifetime} {data : List Lifetime}
    (h : Owns next q slot data) (horigin : l.origin = .localValue) : slot ≠ l := by
  rintro rfl
  have hisSlot := h.isSlot
  rw [Lifetime.isSlot, horigin] at hisSlot
  cases hisSlot

namespace Renews

variable {next : Nat} {q : Path} {slot : Lifetime} {data : List Lifetime}

theorem lone (h : Renews q slot data s s') (howns : Owns next q slot data)
    (hunknown : ¬ Occurs s.context.graph (s.nextVersionOf q)) :
    Lone s'.context.graph (s.nextVersionOf q) := by
  intro k hk hk'
  rcases (h.graph _ k).1 hk with ⟨⟨-, hdata⟩ | ⟨heq, -⟩, -, hsome, -⟩ | hold
  · rcases (h.graph k _).1 hk' with ⟨⟨heq, -⟩ | ⟨heq, -⟩, hne, -⟩ | hold'
    · exact hne heq.symm
    · -- The slot is no data.
      exact howns.slot_ne (howns.own k hdata hsome).2 heq.symm
    · exact hunknown ⟨k, .inr hold'⟩
  · exact howns.slot_ne rfl heq.symm
  · exact hunknown ⟨k, .inl hold⟩

/-- The new version holds the data, and nothing else. -/
theorem holds_iff (h : Renews q slot data s s') (howns : Owns next q slot data)
    (hunknown : ¬ Occurs s.context.graph (s.nextVersionOf q)) (hpos : 0 < next)
    (hnext : next ≤ s.context.nextVersion) (k : Lifetime) :
    s'.context.graph.Holds (s.nextVersionOf q) k ↔ k ∈ data ∧ k.isNone = false := by
  rw [h.graph]
  constructor
  · rintro (⟨⟨-, hdata⟩ | ⟨heq, -⟩, -, hsome, -⟩ | hold)
    · exact ⟨hdata, hsome⟩
    · exact absurd heq.symm (howns.slot_ne rfl)
    · exact absurd ⟨k, .inl hold⟩ hunknown
  · rintro ⟨hdata, hsome⟩
    refine .inl
      ⟨.inl ⟨rfl, hdata⟩, ne_nextVersionOf (Nat.lt_of_lt_of_le hpos hnext) ?_ q, hsome, rfl⟩
    exact (howns.dated k hdata).imp_right fun hlt => Nat.lt_of_lt_of_le hlt hnext

theorem spares (h : Renews q slot data s s') (howns : Owns next q slot data)
    (horigin : l.origin = .localValue) (hpath : l.path ≠ q) :
    Spares s.context.graph s'.context.graph l := by
  refine spares_of_adds h.graph fun c x hE => ?_
  have hversion : s.nextVersionOf q ≠ l := by
    rintro rfl
    exact hpath rfl
  rcases hE with ⟨rfl, hdata⟩ | ⟨rfl, rfl⟩
  · refine ⟨hversion, fun heq => ?_⟩
    subst heq
    exact hpath (howns.own x hdata (by simp [Lifetime.isNone, horigin])).1
  · exact ⟨howns.slot_ne horigin, hversion⟩

end Renews

/-- The variables at the paths have data of their own to be renewed with, and nothing knows of a
version of them that is to be given out. -/
structure Renewable (next : Nat) (data : Path → Extent → List Lifetime) (paths : List Path)
    (s : State) : Prop where
  pos : 0 < next
  given : next ≤ s.context.nextVersion
  owns : ∀ q ∈ paths, ∀ before, s.frame.lookup? q = some before →
    Owns next q before.slot (data q before)
  unknown : ∀ l, l.origin = .localValue → l.path ∈ paths → next ≤ l.version →
    ¬ Occurs s.context.graph l

section Renewing

variable {data : Path → Extent → List Lifetime} {paths : List Path} {next : Nat} {q : Path}
  {before : Extent}

theorem Renewable.tail (h : Renewable next data (q :: paths) s) (hnew : q ∉ paths)
    (hbefore : s.frame.lookup? q = some before)
    (hfirst : Renews q before.slot (data q before) s s₁) : Renewable next data paths s₁ where
  pos := h.pos
  given := Nat.le_trans h.given hfirst.grows.nextVersion
  owns := by
    intro p hp extent hextent
    rw [hfirst.kept p fun heq => hnew (heq ▸ hp)] at hextent
    exact h.owns p (List.mem_cons_of_mem _ hp) extent hextent
  unknown := by
    intro l horigin hpath hversion hoccurs
    have hspares := hfirst.spares (h.owns q List.mem_cons_self before hbefore) horigin
      fun heq => hnew (heq ▸ hpath)
    refine h.unknown l horigin (List.mem_cons_of_mem _ hpath) hversion (hoccurs.imp fun k => ?_)
    exact Or.imp (hspares k).1.1 (hspares k).2.1

theorem RenewsAll.spares (h : RenewsAll data paths s s') (hs : Renewable next data paths s)
    (horigin : l.origin = .localValue) (hpath : l.path ∉ paths) :
    Spares s.context.graph s'.context.graph l := by
  induction h with
  | nil s => exact fun k => ⟨Iff.rfl, Iff.rfl⟩
  | cons hnew hbefore hfirst _ ih =>
    rw [List.mem_cons, not_or] at hpath
    exact (hfirst.spares (hs.owns _ List.mem_cons_self _ hbefore) horigin hpath.1).trans
      (ih (hs.tail hnew hbefore hfirst) hpath.2)

/-- In the end every new version holds its data only, and stands for nothing but itself. -/
theorem RenewsAll.lone (h : RenewsAll data paths s s') (hs : Renewable next data paths s)
    (hq : q ∈ paths) : ∃ before version, s.frame.lookup? q = some before ∧
      s'.frame.lookup? q = some ⟨version, before.slot⟩ ∧ version.origin = .localValue ∧
      next ≤ version.version ∧ Lone s'.context.graph version ∧
      ∀ k, s'.context.graph.Holds version k ↔ k ∈ data q before ∧ k.isNone = false := by
  induction h with
  | nil s => cases hq
  | @cons first before paths s s₁ s' hnew hbefore hfirst hrest ih =>
    have howns := hs.owns first List.mem_cons_self before hbefore
    have htail := hs.tail hnew hbefore hfirst
    rcases List.mem_cons.1 hq with rfl | hq
    · -- What is renewed later has another path.
      have hspares := hrest.spares (l := s.nextVersionOf q) htail rfl hnew
      have hunknown := hs.unknown (s.nextVersionOf q) rfl List.mem_cons_self hs.given
      exact ⟨before, s.nextVersionOf q, hbefore, (hrest.kept hnew).trans hfirst.current,
        rfl, hs.given, (hfirst.lone howns hunknown).spared hspares,
        fun k => (hspares k).1.trans (hfirst.holds_iff howns hunknown hs.pos hs.given k)⟩
    · obtain ⟨found, version, hfound, hrest⟩ := ih htail hq
      rw [hfirst.kept q (fun heq => hnew (heq ▸ hq))] at hfound
      exact ⟨found, version, hfound, hrest⟩

/-- Between nodes, variables can be renewed with data that keeps to the discipline. -/
theorem Discipline.Inv.renewable {context : Context} (hs : (fresh env context).Inv none s)
    (hpos : 0 < s.context.nextVersion)
    (hdata : ∀ q ∈ paths, ∀ before, s.frame.lookup? q = some before →
      ∀ x ∈ data q before,
      ∃ extent : Extent, x = extent.value ∧ (fresh env context).Housed none s q extent) :
    Renewable s.context.nextVersion data paths s where
  pos := hpos
  given := Nat.le_refl _
  owns := by
    intro q hq before hbefore
    refine ⟨by rw [(hs.frame q before hbefore).slot]; rfl, fun x hx hsome => ?_, fun x hx => ?_⟩
    · obtain ⟨extent, rfl, hextent⟩ := hdata q hq before hbefore x hx
      exact hextent.own hsome
    · obtain ⟨extent, rfl, hextent⟩ := hdata q hq before hbefore x hx
      exact hextent.valid.version
  unknown := by
    intro l _ _ hversion hoccurs
    rcases (hs.dated l hoccurs).2 with hzero | hlt
    · exact Nat.ne_of_gt (Nat.lt_of_lt_of_le hpos hversion) hzero
    · exact Nat.lt_irrefl _ (Nat.lt_of_lt_of_le hlt hversion)

end Renewing

/-! ## Branches -/

section Branches

variable {context : Context} {positive negative : PathMap Extent}

section

variable (hs : (fresh env context).Inv none s)
  (hpositive : ∀ (path : Path) (extent : Extent), positive[path]? = some extent →
    (fresh env context).Housed none s path extent)
  (hnegative : ∀ (path : Path) (extent : Extent), negative[path]? = some extent →
    (fresh env context).Housed none s path extent)

include hs hpositive hnegative

theorem renewable_sides (hpos : 0 < s.context.nextVersion) (paths : List Path) :
    Renewable s.context.nextVersion (sides positive negative) paths s := by
  refine hs.renewable hpos fun q _ before hbefore x hx => ?_
  have hside : ∀ changes : PathMap Extent, (∀ (path : Path) (extent : Extent),
      changes[path]? = some extent → (fresh env context).Housed none s path extent) →
      (fresh env context).Housed none s q (changes[q]?.getD before) := by
    intro changes hchanges
    cases hget : changes[q]? with
    | none => exact hs.frame q before hbefore
    | some extent => exact hchanges q extent hget
  simp only [sides, List.mem_cons, List.not_mem_nil, or_false] at hx
  rcases hx with rfl | rfl
  · exact ⟨_, rfl, hside positive hpositive⟩
  · exact ⟨_, rfl, hside negative hnegative⟩

theorem inv_mergeVariables {paths : List Path}
    (h : Runs (paths.forM (mergeVariable positive negative)) s () s') :
    (fresh env context).Inv none s' := by
  induction h using runs_forM_rec with
  | nil => exact hs
  | @cons q paths s _ _ hfirst _ ih =>
    obtain ⟨before, frame, hlookup, hframe, rfl⟩ := runs_mergeVariable_adopted hfirst
    have hgrows := grows_joining s q positive negative before frame
    have hs₁ := hs.join hlookup hframe (fun extent hget => (hpositive q extent hget).valid)
      fun extent hget => (hnegative q extent hget).valid
    exact ih hs₁ (fun path extent hget => (hpositive path extent hget).later hgrows (.refl _ _))
      (fun path extent hget => (hnegative path extent hget).later hgrows (.refl _ _))

end

/-- New lifetimes in the result of a node are temporary, and nothing else holds them. -/
def LoneValues (context : Context) (id : NodeId) (s : State) : Prop :=
  ∀ flow (m : Path) (extent : Extent), s.flowAt id = some flow →
    flow.bundle[m]? = some extent →
    extent.value.isNone = false → ¬ Occurs context.graph extent.value →
    extent.value.origin = .temporary ∧ Lone s.context.graph extent.value

/-- The value of a branch that no one knew of stands for nothing but itself, and the storings of the
branch leave the data of variables alone that is newer than the values of both sides. -/
theorem lone_of_joinBranches {before : State} {positive negative : NodeId} {ty : Ty}
    (hbefore : (fresh env context).Inv none before) (hs : (fresh env context).Inv none s)
    (hflows : ∀ node, s.flowAt node = before.flowAt node)
    (h : Runs (joinBranches env id positive negative ty) s () s') :
    s'.frame = s.frame ∧ LoneValues context id s' ∧
      ∀ l, l.origin = .localValue → before.context.nextVersion ≤ l.version →
      0 < l.version → Spares s.context.graph s'.context.graph l := by
  obtain ⟨fields, positiveFlow, negativeFlow, -, hpositive, hnegative, hjoins⟩ :=
    runs_joinBranches h
  -- What is stored is data of one of the sides, which was recorded before the variables were
  -- merged.
  have hstored : ∀ c x, (∃ field ∈ fields, JoinStores env id positiveFlow.bundle
      negativeFlow.bundle field c x) →
      c.origin = .temporary ∧ Fresh env context none before x := by
    rintro c x ⟨field, -, rfl, -, extent, rfl, hextent⟩
    rw [hflows] at hpositive hnegative
    refine ⟨rfl, ?_⟩
    rcases hextent with hextent | hextent
    · exact (hbefore.recorded _ _ hpositive _ _ hextent).value
    · exact (hbefore.recorded _ _ hnegative _ _ hextent).value
  refine ⟨hjoins.finishes.frame, fun flow m extent hid hextent hsome hnew => ?_,
    fun l horigin hversion hpos => ?_⟩
  · obtain ⟨field, hjoined⟩ := hjoins.exists_joinedAt hid hextent hsome
    rw [hjoined] at hnew ⊢
    -- The node has no result yet, so that nothing that keeps to the discipline has the new
    -- lifetime.
    have hunknown : ∀ {s : State}, s.flowAt id = none →
        ¬ Fresh env context none s (env.joinedAt id field) := by
      intro s hnone hfresh
      rcases hfresh.temp id ⟨.inl rfl, "if", field.path, rfl⟩
        with ⟨_, ⟨⟩⟩ | hrecorded | hoccurs
      · exact hrecorded hnone
      · exact hnew hoccurs
    refine ⟨rfl, fun k _ hk => ?_⟩
    rcases (hjoins.graph k _).1 hk with ⟨hE, -⟩ | hold
    · exact hunknown ((hflows id).symm.trans hjoins.unrecorded) (hstored k _ hE).2
    · exact hunknown hjoins.unrecorded (hs.graph k _ hold).2
  · refine spares_of_adds hjoins.graph fun c x hE => ?_
    obtain ⟨htemp, hx⟩ := hstored c x hE
    refine ⟨fun heq => ?_, fun heq => ?_⟩
    · rw [heq, horigin] at htemp
      cases htemp
    · -- Data of a side is older than the version.
      subst heq
      rcases hx.version with hzero | hlt
      · exact Nat.ne_of_gt hpos hzero
      · exact Nat.lt_irrefl _ (Nat.lt_of_lt_of_le hlt hversion)

/-- What a branch changes keeps to the discipline, and is data. -/
theorem inv_of_branch {depth : Nat} {branch : NodeId} {frame : Frame}
    (hs : (fresh env context).Inv none s) (hframe : frame = s.frame.child)
    (h : Runs (analyzeNode env depth .value branch) { s with frame } () s') :
    Grows s s' ∧ (fresh env context).Inv none { s' with frame := s.frame } ∧
      ∀ (path : Path) (extent : Extent), s'.frame.rebindings[path]? = some extent →
        (fresh env context).Housed none { s' with frame := s.frame } path extent ∧
          extent.value.isNone = false := by
  subst hframe
  have hs' := Discipline.inv_of_analyzeNode names_fresh.1 (hs.scope (.inl rfl)) h
  have hgrows := (Grows.frame s _).trans (grows_analyzeNode _ _ _ _ _ _ _ h)
  refine ⟨hgrows, hs.unscope hs' hgrows (.refl _ _), fun path extent hchange => ⟨?_, ?_⟩⟩
  · exact (hs'.frame path extent (Frame.lookup?_of_rebindings hchange)).later
      (Grows.frame s' _) (.refl _ _)
  · -- It is a version that was logged on the way.
    obtain ⟨p', -, hsteps⟩ := steps_of_analyzeNode [] h
    have hlogged :=
      (hsteps.reframes (Progress.fresh_of_task_eq_none rfl)).2.rebindings (.inl rfl) hchange
    exact (hs'.rebound _ (List.drop_subset_drop_left _ hs.base hlogged)).2

/-- Changes at the end of the branches: the variables that either side has changed are merged. -/
structure Merges (env : Env) (context : Context) (s s₁ positiveEnd negativeEnd s₃ : State) :
    Prop where
  grows : Grows s negativeEnd
  inv : (fresh env context).Inv none { negativeEnd with frame := s₁.frame }
  data : ∀ (path : Path) (extent : Extent), positiveEnd.frame.rebindings[path]? = some extent ∨
    negativeEnd.frame.rebindings[path]? = some extent →
    (fresh env context).Housed none { negativeEnd with frame := s₁.frame } path extent ∧
      extent.value.isNone = false
  renews : RenewsAll (sides positiveEnd.frame.rebindings negativeEnd.frame.rebindings)
    (positiveEnd.frame.rebindings ∪ negativeEnd.frame.rebindings).keys
    { negativeEnd with frame := s₁.frame } s₃
  merged : (fresh env context).Inv none s₃

/-- What the sides change is merged, and then the value is joined. -/
theorem merges_of_cond {depth : Nat} {condition positive : NodeId} {negative? : Option NodeId}
    (hs : (fresh env context).Inv none s)
    (h : Runs (cond env (analyzeNode env depth) id condition positive negative?) s () s') :
    ∃ s₁ positiveEnd negativeEnd s₃,
      RunsBranches env depth condition positive negative? s s₁ positiveEnd negativeEnd ∧
      Merges env context s s₁ positiveEnd negativeEnd s₃ ∧
      (Runs (recordVoid id) s₃ () s' ∨
        ∃ negative ty, Runs (joinBranches env id positive negative ty) s₃ () s') := by
  obtain ⟨s₁, positiveEnd, negativeEnd, s₃, ty, hbranches, hmerge, -, hend⟩ := runs_cond h
  have hs₁ := Discipline.inv_of_analyzeNode names_fresh.1 hs hbranches.condition
  have hgrows₁ := grows_analyzeNode _ _ _ _ _ _ _ hbranches.condition
  obtain ⟨hgrows₂, hinv₂, hchanges₂⟩ := inv_of_branch hs₁ rfl hbranches.positive
  -- The second branch, if there is one, starts from the frame of the first.
  have hsecond : Grows positiveEnd negativeEnd ∧
      (fresh env context).Inv none { negativeEnd with frame := s₁.frame } ∧
      ∀ (path : Path) (extent : Extent), negativeEnd.frame.rebindings[path]? = some extent →
        (fresh env context).Housed none { negativeEnd with frame := s₁.frame } path extent ∧
          extent.value.isNone = false := by
    cases negative? with
    | none =>
      obtain rfl := hbranches.negative
      exact ⟨Grows.frame _ _, hinv₂, by simp [rebindings_child]⟩
    | some negative =>
      obtain ⟨hgrows₃, hinv₃, hchanges₃⟩ := inv_of_branch hinv₂ rfl hbranches.negative
      exact ⟨(Grows.frame _ _).trans hgrows₃, hinv₃, hchanges₃⟩
  obtain ⟨hgrows₃, hinv₃, hchanges₃⟩ := hsecond
  have hlater : Grows { positiveEnd with frame := s₁.frame }
      { negativeEnd with frame := s₁.frame } :=
    (Grows.frame { positiveEnd with frame := s₁.frame } positiveEnd.frame).trans
      (hgrows₃.trans (Grows.frame _ _))
  have hpositive : ∀ (path : Path) (extent : Extent),
    positiveEnd.frame.rebindings[path]? = some extent →
      (fresh env context).Housed none { negativeEnd with frame := s₁.frame } path extent :=
    fun path extent hget => (hchanges₂ path extent hget).1.later hlater (.refl _ _)
  refine ⟨s₁, positiveEnd, negativeEnd, s₃, hbranches,
    ⟨(hgrows₁.trans hgrows₂).trans hgrows₃, hinv₃, ?_,
    renewsAll_mergeBranches hmerge, inv_mergeVariables hinv₃ hpositive
      (fun path extent hget => (hchanges₃ path extent hget).1) hmerge⟩, ?_⟩
  · rintro path extent (hget | hget)
    · exact ⟨hpositive path extent hget, (hchanges₂ path extent hget).2⟩
    · exact hchanges₃ path extent hget
  · exact hend.imp And.right fun hjoin => hjoin.imp fun negative h => ⟨ty, h.2⟩

theorem Merges.renewable {positiveEnd negativeEnd s₃ : State}
    (h : Merges env context s s₁ positiveEnd negativeEnd s₃) (hpos : 0 < s.context.nextVersion)
    (paths : List Path) : Renewable negativeEnd.context.nextVersion
      (sides positiveEnd.frame.rebindings negativeEnd.frame.rebindings) paths
      { negativeEnd with frame := s₁.frame } :=
  renewable_sides h.inv (fun path extent hget => (h.data path extent (.inl hget)).1)
    (fun path extent hget => (h.data path extent (.inr hget)).1)
    (Nat.lt_of_lt_of_le hpos h.grows.nextVersion) paths

/-- The end of the branches leaves the merged variables alone. -/
theorem Merges.finish {positiveEnd negativeEnd s₃ : State} {positive : NodeId}
    (h : Merges env context s s₁ positiveEnd negativeEnd s₃)
    (hend : Runs (recordVoid id) s₃ () s' ∨
      ∃ negative ty, Runs (joinBranches env id positive negative ty) s₃ () s') :
    s'.frame = s₃.frame ∧
    LoneValues context id s' ∧
    ∀ l, l.origin = .localValue → negativeEnd.context.nextVersion ≤ l.version →
    0 < l.version → Spares s₃.context.graph s'.context.graph l := by
  rcases hend with hvoid | ⟨negative, ty, hjoin⟩
  · obtain ⟨-, hcontext, hframe, hflow⟩ := runs_record hvoid
    refine ⟨hframe, fun flow m extent hid hextent => ?_, fun l _ _ _ => ?_⟩
    · rw [hflow id, if_pos rfl] at hid
      cases hid
      simp at hextent
    · rw [hcontext]
      exact fun k => ⟨Iff.rfl, Iff.rfl⟩
  · exact (lone_of_joinBranches h.inv h.merged h.renews.flowAt hjoin :)

theorem lone_of_cond {depth : Nat} {condition positive : NodeId} {negative? : Option NodeId}
    (hs : (fresh env context).Inv none s) (hpos : 0 < s.context.nextVersion)
    (hcondition : Runs (analyzeNode env depth .value condition) s () s₁)
    (h : Runs (cond env (analyzeNode env depth) id condition positive negative?) s () s') :
    (∀ q extent, s'.frame.lookup? q = some extent → s₁.frame.lookup? q ≠ some extent →
      extent.value.origin = .localValue ∧ Lone s'.context.graph extent.value) ∧
    LoneValues context id s' := by
  obtain ⟨t, positiveEnd, negativeEnd, s₃, hbranches, hmerges, hend⟩ := merges_of_cond hs h
  obtain ⟨-, rfl⟩ := hcondition.det hbranches.condition
  obtain ⟨hframe, hvalue, hspares⟩ := hmerges.finish hend
  have hpos' := Nat.lt_of_lt_of_le hpos hmerges.grows.nextVersion
  refine ⟨fun q extent hlookup hchanged => ?_, hvalue⟩
  rw [hframe] at hlookup
  by_cases hq : q ∈ (positiveEnd.frame.rebindings ∪ negativeEnd.frame.rebindings).keys
  · obtain ⟨before, version, -, hfound, horigin, hversion, hlone, -⟩ :=
      hmerges.renews.lone (hmerges.renewable hpos _) hq
    cases hlookup.symm.trans hfound
    exact ⟨horigin,
      hlone.spared (hspares _ horigin hversion (Nat.lt_of_lt_of_le hpos' hversion))⟩
  · rw [hmerges.renews.kept hq] at hlookup
    exact absurd hlookup hchanged

end Branches

/-! ## Loops -/

section Loops

variable {context : Context} {condition body : NodeId}

/-- The entry versions of a loop are the current versions of their variables, and stand for nothing
but themselves. -/
theorem lone_of_loopEntry {entries : List (Path × Lifetime)} (hs : (fresh env context).Inv none s)
    (hpos : 0 < s.context.nextVersion) (h : Runs (loopEntry env condition body) s entries s') :
    ∀ entry ∈ entries, (∃ slot, s'.frame.lookup? entry.1 = some ⟨entry.2, slot⟩) ∧
      entry.2.origin = .localValue ∧ Lone s'.context.graph entry.2 := by
  obtain ⟨effects, candidates, s₀, henters, hentries⟩ := runs_loopEntry h
  have hs₀ : (fresh env context).Inv none s₀ := by
    have hgrows := henters.grows_exposed
    obtain ⟨exposed, rfl, -⟩ := henters.exposes
    exact hs.later hgrows rfl (fun _ => rfl) rfl fun _ _ hx => .inl hx
  have hrenewable : Renewable _ (fun _ before => [before.value]) candidates s₀ :=
    hs₀.renewable (Nat.lt_of_lt_of_le hpos henters.grows_exposed.nextVersion)
        fun q _ before hbefore x hx =>
      ⟨before, List.mem_singleton.1 hx, hs₀.frame q before hbefore⟩
  intro entry hentry
  obtain ⟨hcandidate, slot, hslot⟩ := henters.current ((hentries entry.1 entry.2).1 hentry)
  obtain ⟨before, version, -, hversion, horigin, -, hlone, -⟩ :=
    henters.renews.lone hrenewable hcandidate
  cases hslot.symm.trans hversion
  exact ⟨⟨_, hslot⟩, horigin, hlone⟩

end Loops

/-! ## The analysis of a program -/

/-- When the analysis of a function comes to a node, then, whatever comes in: no variable that
branches there have changed, no value of the branches that was not known before the function, and no
variable at the entry into a loop there is taken for heap memory. Every loop begins with its
entry. -/
theorem unbacked_of_join {program : Program} {decls : Declarations} {options : Options}
    {owner : Owner} {function : Function} {context : Context}
    (hprecedes : Precedes program decls options context owner)
    (hcomes : ComesTo (.ofFunction decls options owner function) function context id s) :
    (∀ depth condition positive negative? s₁ s', Runs
      (analyzeNode (.ofFunction decls options owner function) depth .value condition) s () s₁ →
      Runs (cond (.ofFunction decls options owner function)
        (analyzeNode (.ofFunction decls options owner function) depth) id condition
        positive negative?) s () s' →
      (∀ q extent, s'.frame.lookup? q = some extent → s₁.frame.lookup? q ≠ some extent →
        Unbacked (.ofFunction decls options owner function) s' extent.value) ∧
      ∀ flow (m : Path) (extent : Extent), s'.flowAt id = some flow →
      flow.bundle[m]? = some extent →
        extent.value.isNone = false → ¬ Occurs context.graph extent.value →
        Unbacked (.ofFunction decls options owner function) s' extent.value) ∧
    (∀ condition body entries s',
      Runs (loopEntry (.ofFunction decls options owner function) condition body) s entries s' →
      ∀ entry ∈ entries, (∃ slot, s'.frame.lookup? entry.1 = some ⟨entry.2, slot⟩) ∧
        Unbacked (.ofFunction decls options owner function) s' entry.2) ∧
    ∀ recur condition body s',
      Runs (loop (.ofFunction decls options owner function) recur id condition body) s () s' →
      ∃ entries t,
        Runs (loopEntry (.ofFunction decls options owner function) condition body) s entries t := by
  obtain ⟨hpos, hs⟩ := inv_fresh_of_comesTo hprecedes hcomes
  refine ⟨fun depth condition positive negative? s₁ s' hcondition hcond => ?_,
    fun condition body entries s' hentry entry hmem =>
    ?_, fun recur condition body s' hloop => ?_⟩
  · obtain ⟨hmerged, hjoined⟩ := lone_of_cond hs hpos hcondition hcond
    refine ⟨fun q extent hlookup hchanged => ?_,
      fun flow m extent hflow hextent hsome hnew => ?_⟩
    · obtain ⟨horigin, hlone⟩ := hmerged q extent hlookup hchanged
      exact hlone.unbacked (.inl horigin)
    · obtain ⟨horigin, hlone⟩ := hjoined flow m extent hflow hextent hsome hnew
      exact hlone.unbacked (.inr horigin)
  · obtain ⟨hcurrent, horigin, hlone⟩ := lone_of_loopEntry hs hpos hentry entry hmem
    exact ⟨hcurrent, hlone.unbacked (.inl horigin)⟩
  · rw [loop_eq] at hloop
    obtain ⟨entries, t, hentry, -⟩ := runs_bind_iff.1 hloop
    exact ⟨entries, t, hentry⟩

/-- `x = 0; p = if true then new int* else new int*; *p = &x`. -/
def joining : List Item := [
  .function "f" [] .void (.block [
    .declare "x" (.literal (.int 0)),
    .declare "p" (.cond (.literal (.bool true)) (.newDefault (.pointer .int))
      (some (.newDefault (.pointer .int)))),
    .assign (.dereference (.var "p")) (.addressOf (.var "x"))])]

/-- The function is accepted, though `p` is heap memory on both sides, and the address of `x` is
written through it. -/
theorem unbacked_of_joining : ∃ assembly results owner function s s₁ s',
      Program.ofItems joining = .ok assembly ∧
      analyze assembly.program assembly.declarations {} = .ok results ∧
      Precedes assembly.program assembly.declarations {} .initial owner ∧
      ComesTo (.ofFunction assembly.declarations {} owner function) function .initial ⟨5⟩ s ∧
      Runs (analyzeNode (.ofFunction assembly.declarations {} owner function) 1 .value ⟨2⟩) s
      () s₁ ∧ Runs (cond (.ofFunction assembly.declarations {} owner function)
        (analyzeNode (.ofFunction assembly.declarations {} owner function) 1) ⟨5⟩ ⟨2⟩
        ⟨3⟩ (some ⟨4⟩)) s () s' ∧
      isHeapBacked s'.context.graph (.root ⟨["f", "$new_3"]⟩ .heap) = true ∧
      isHeapBacked s'.context.graph (.root ⟨["f", "$new_4"]⟩ .heap) = true ∧
      .root ⟨["f", "$new_3"]⟩ .heap ∈
        s'.context.graph.supportOf ⟨⟨["f", "$if_5"]⟩, 0, .temp, .temporary⟩ ∧
      .root ⟨["f", "$new_4"]⟩ .heap ∈
        s'.context.graph.supportOf ⟨⟨["f", "$if_5"]⟩, 0, .temp, .temporary⟩ ∧
      Unbacked (.ofFunction assembly.declarations {} owner function) s'
        ⟨⟨["f", "$if_5"]⟩, 0, .temp, .temporary⟩ := by
  have h : AcceptsAt joining ⟨5⟩ fun env s =>
    ∃ s₁, Runs (analyzeNode env 1 .value ⟨2⟩) s () s₁ ∧
      ∃ s', Runs (cond env (analyzeNode env 1) ⟨5⟩ ⟨2⟩ ⟨3⟩ (some ⟨4⟩)) s () s' ∧
        isHeapBacked s'.context.graph (.root ⟨["f", "$new_3"]⟩ .heap) = true ∧
        isHeapBacked s'.context.graph (.root ⟨["f", "$new_4"]⟩ .heap) = true ∧
        .root ⟨["f", "$new_3"]⟩ .heap ∈
          s'.context.graph.supportOf ⟨⟨["f", "$if_5"]⟩, 0, .temp, .temporary⟩ ∧
        .root ⟨["f", "$new_4"]⟩ .heap ∈
          s'.context.graph.supportOf ⟨⟨["f", "$if_5"]⟩, 0, .temp, .temporary⟩ ∧
        ∃ flow, s'.flowAt ⟨5⟩ = some flow ∧ flow.bundle[Path.whole]? =
          some (.ofValue ⟨⟨["f", "$if_5"]⟩, 0, .temp, .temporary⟩) := by
    decide +kernel
  obtain ⟨assembly, hitems, results, haccepted, owner, -, honly, function, -, s, hcomes, s₁,
    hcondition, s', hcond, hpositive, hnegative, hsupport, hsupport', flow, hflow, hwhole⟩ := h
  have hprecedes := precedes_of_only assembly.declarations {} honly
  refine ⟨assembly, results, owner, function, s, s₁, s', hitems, haccepted, hprecedes, hcomes,
    hcondition, hcond, hpositive, hnegative, hsupport, hsupport', ?_⟩
  refine ((unbacked_of_join hprecedes hcomes).1 1 _ _ _ s₁ s' hcondition hcond).2 flow _
    _ hflow hwhole
    rfl ?_
  rintro ⟨k, hk | hk⟩
  · exact Digraph.not_adj_empty _ k hk
  · exact Digraph.not_adj_empty k _ hk

end Regions.Flow
