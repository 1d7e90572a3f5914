import Regions.Proofs.Confinement

/-!
# Two runs of one analysis

The analysis of a function is run twice: once with little knowledge about the program, and once with
more. If the additional knowledge is about other things, the two runs go alike step by step: they
end with the same abort, or with the same results up to the numbers of versions.

* `Twins`: what the two runs start from, and which paths they speak of;
* `Twins.Clean`, `Twins.Alike`: knowledge that speaks of those paths only, and knowledge that looks
  the same to somebody who asks about those paths only;
* `Twins.Sim`: states that correspond to each other;
* `Twins.Agree`: two steps that lead from such states to such states, or to the same abort;
* `Twins.coupling`: what agrees this way can be told step by step;
* `Twins.analyzeFunction`: the analysis of a function in two runs.
-/

namespace Regions

open Std Relation

variable {y : Lifetime} {id : NodeId}

/-- The test of a set finds a member that passes. -/
theorem any_eq_true_iff {α : Type} [Ord α] [Std.TransOrd α] [Std.LawfulEqOrd α]
    {set : ExtTreeSet α} {test : α → Bool} :
    set.any test = true ↔ ∃ a ∈ set, test a = true := by
  suffices h : set.any test = set.toList.any test by
    simp [h, List.any_eq_true, ExtTreeSet.mem_toList]
  -- The standard library states this for hashed sets only, so the search through the tree is
  -- opened.
  obtain ⟨⟨⟨tree⟩⟩⟩ := set
  induction tree using Quotient.ind with
  | _ tree =>
    change tree.inner.any (fun a _ => test a) = tree.inner.keys.any test
    have hkeys := @Std.DTreeMap.Internal.Impl.forIn_eq_forIn_keys α (fun _ => Unit) tree.inner
      (Option Bool × Unit) Id _ _ (fun a _ => if test a = true then pure (.done (some true, ()))
        else pure (.yield (none, ()))) (none, ())
    unfold Std.DTreeMap.Internal.Impl.any
    simp only [ForIn.forIn] at hkeys ⊢
    rw [hkeys]
    clear hkeys
    induction tree.inner.keys with
    | nil => rfl
    | cons a keys ih =>
      by_cases h : test a = true
      · simp [h]
      · simpa [h] using ih

namespace Flow

/-- Two runs of the analysis of a function. -/
structure Twins (env : Env) where
  /-- How many more versions were given out before the second run. -/
  ahead : Nat
  /-- The paths that the runs speak of. -/
  Ours : Path → Prop
  /-- The versions adopted before the second run. -/
  rebound : List (Path × Lifetime)
  /-- The heap writes before the second run. -/
  heapWrites : List HeapWrite
  ours : ∀ path, path.startsWith env.scope = true → Ours path

namespace Twins

variable {env : Env} {T : Twins env} {Ours : Path → Prop} {l k c x : Lifetime} {path : Path}

/-! ## Lifetimes of certain paths -/

/-- A lifetime that belongs to certain paths. Only versions of variables have numbers. -/
def Known (Ours : Path → Prop) (l : Lifetime) : Prop :=
  l.isNone = true ∨ Ours l.path ∧ l ≠ .heap ∧
    (l.version ≠ 0 → l.role = .alias ∧ l.origin = .localValue)

theorem Known.ours (h : Known Ours l) (hsome : l.isNone = false) : Ours l.path :=
  (h.resolve_left (by simp [hsome])).1

theorem Known.renumber_eq (h : Known Ours l) (hsome : l.isNone = false)
    (hother : l.role ≠ .alias ∨ l.origin ≠ .localValue) (n : Nat) : l.renumber n = l := by
  refine Lifetime.renumber_of_version_eq_zero ?_
  by_contra hversion
  have := (h.resolve_left (by simp [hsome])).2.2 hversion
  grind

theorem Known.renumber_of_isSlot (h : Known Ours l) (hslot : l.isSlot = true) (n : Nat) :
    l.renumber n = l := by
  simp only [Lifetime.isSlot, decide_eq_true_eq] at hslot
  exact h.renumber_eq (by simp [Lifetime.isNone, hslot]) (.inr (by simp [hslot])) n

theorem ours_tempPath (kind : String) (id : NodeId) (m : Path) :
    T.Ours (env.tempPath kind id ++ m) :=
  T.ours _ (Path.startsWith_append (Path.startsWith_child (Path.startsWith_self _) _) m)

theorem known_region (kind : String) (id : NodeId) :
    Known T.Ours (.root (env.tempPath kind id) .heap) := by
  have hours := T.ours_tempPath kind id .whole
  have hne : env.tempPath kind id ++ .whole ≠ Lifetime.heap.path :=
    tempPath_ne_heap kind id .whole
  rw [Path.append_whole] at hours hne
  exact .inr ⟨hours, fun h => hne (congrArg Lifetime.path h), fun h => absurd rfl h⟩

/-- The extent is made of such lifetimes. -/
def Admits (T : Twins env) (extent : Extent) : Prop :=
  Known T.Ours extent.value ∧ Known T.Ours extent.slot

/-- The bundle is made of such lifetimes. -/
def Bundled (T : Twins env) (bundle : Bundle) : Prop :=
  ∀ (path : Path) (extent : Extent), bundle[path]? = some extent → T.Admits extent

/-! ## What the runs know -/

/-- All knowledge is about certain paths. -/
structure Clean (Ours : Path → Prop) (context : Context) : Prop where
  graph : ∀ c x, context.graph.Holds c x → c.isNone = false ∧
    (Known Ours c ∨ c = .heap) ∧ Known Ours x
  exposed : ∀ path ∈ context.exposed, Ours path
  captures : ∀ holder captured, context.captures.held.Adj holder captured →
    Ours holder ∧ Ours captured
  rebound : ∀ entry ∈ context.rebound, Known Ours entry.2
  heapWrites : ∀ write ∈ context.heapWrites, Known Ours write.container ∧
    Known Ours write.stored
  nextVersion : 0 < context.nextVersion

/-- The second run knows the same as the first about the paths that the runs speak of. -/
structure Alike (T : Twins env) (context context' : Context) : Prop where
  graph : ∀ c, Known T.Ours c → ∀ y, context'.graph.Holds (c.renumber T.ahead) y ↔
    ∃ x, context.graph.Holds c x ∧ y = x.renumber T.ahead
  exposed : ∀ path, T.Ours path → context'.isExposed path = context.isExposed path
  captures : ∀ holder, T.Ours holder → ∀ captured,
    context'.captures.held.Adj holder captured ↔ context.captures.held.Adj holder captured
  rebound : context'.rebound =
    T.rebound ++ context.rebound.map fun entry => (entry.1, entry.2.renumber T.ahead)
  heapWrites : context'.heapWrites =
    T.heapWrites ++ context.heapWrites.map (HeapWrite.renumber T.ahead)
  nextVersion : context'.nextVersion = context.nextVersion + T.ahead

/-- The states of the two runs correspond to each other. -/
structure Sim (T : Twins env) (s t : State) : Prop where
  clean : Clean T.Ours s.context
  alike : T.Alike s.context t.context
  frame : t.frame = s.frame.renumber T.ahead
  recorded : t.recorded = OwnerFlow.renumber T.ahead s.recorded
  bindings : ∀ path extent, s.frame.lookup? path = some extent → T.Ours path ∧ T.Admits extent
  results : ∀ id flow, s.recorded.get? id = some (some flow) →
    T.Bundled flow.bundle ∧ ∀ path ∈ flow.escaping, T.Ours path

/-! ### Queries -/

section Queries

variable {context context' : Context}

theorem Clean.known_of_holds (h : Clean Ours context) (hx : context.graph.Holds c x) :
    Known Ours x :=
  (h.graph c x hx).2.2

theorem Clean.known_of_reaches (h : Clean Ours context) (hl : Known Ours l)
    (hx : context.graph.Reaches l x) : Known Ours x := by
  cases hx with
  | refl => exact hl
  | tail _ hlast => exact h.known_of_holds hlast

theorem Clean.known_of_mem_equivalents (h : Clean Ours context)
    (hx : x ∈ context.graph.equivalents l) : Known Ours x := by
  obtain ⟨m, -, hlast⟩ := TransGen.tail'_iff.1 (Outlives.mem_equivalents_iff.1 hx).2
  exact h.known_of_holds hlast.1

section

variable (h : T.Alike context context') (hclean : Clean T.Ours context) (hl : Known T.Ours l)

include h hclean hl

/-- What a lifetime rests on in the second run is what it rests on in the first. -/
theorem Alike.reaches_iff : context'.graph.Reaches (l.renumber T.ahead) y ↔
      ∃ x, Known T.Ours x ∧ context.graph.Reaches l x ∧ y = x.renumber T.ahead := by
  constructor
  · intro hreach
    induction hreach with
    | refl => exact ⟨l, hl, .refl _ l, rfl⟩
    | tail _ hstep ih =>
      obtain ⟨m, hm, hreach, rfl⟩ := ih
      obtain ⟨x, hx, rfl⟩ := (h.graph m hm _).1 hstep
      exact ⟨x, hclean.known_of_holds hx, hreach.trans (.of_holds hx), rfl⟩
  · rintro ⟨x, -, hreach, rfl⟩
    induction hreach with
    | refl => exact .refl _ _
    | @tail m x hreach hstep ih =>
      have hm : Known T.Ours m := hclean.known_of_reaches hl hreach
      exact ih.trans (.of_holds ((h.graph m hm _).2 ⟨x, hstep, rfl⟩))

theorem Alike.mem_supportOf_iff : y ∈ context'.graph.supportOf (l.renumber T.ahead) ↔
      ∃ x ∈ context.graph.supportOf l, y = x.renumber T.ahead := by
  simp only [Outlives.mem_supportOf_iff_reaches, h.reaches_iff hclean hl]
  constructor
  · rintro ⟨hne, x, -, hreach, rfl⟩
    exact ⟨x, ⟨fun heq => hne (heq ▸ rfl), hreach⟩, rfl⟩
  · rintro ⟨x, ⟨hne, hreach⟩, rfl⟩
    exact ⟨by simpa using hne, x, hclean.known_of_reaches hl hreach, hreach, rfl⟩

/-- The regions that a lifetime rests on have no numbers, and are the same in both runs. -/
theorem Alike.rootsOf_eq :
    context'.graph.rootsOf (l.renumber T.ahead) = context.graph.rootsOf l := by
  refine ExtTreeSet.ext_mem fun root => ?_
  simp only [Outlives.mem_rootsOf_iff, h.reaches_iff hclean hl]
  constructor
  · rintro ⟨⟨x, hx, hreach, rfl⟩, hroot, hheap, hnone⟩
    simp only [Lifetime.isRoot_renumber, Lifetime.isHeap_renumber, Lifetime.isNone_renumber]
      at hroot hheap hnone
    have hrole : x.role ≠ .alias := by
      simp only [Lifetime.isRoot, decide_eq_true_eq] at hroot
      simp [hroot]
    rw [hx.renumber_eq hnone (.inl hrole)]
    exact ⟨hreach, hroot, hheap, hnone⟩
  · rintro ⟨hreach, hroot, hheap, hnone⟩
    have hknown : Known T.Ours root := hclean.known_of_reaches hl hreach
    have hrole : root.role ≠ .alias := by
      simp only [Lifetime.isRoot, decide_eq_true_eq] at hroot
      simp [hroot]
    exact ⟨⟨root, hknown, hreach, (hknown.renumber_eq hnone (.inl hrole) _).symm⟩,
      hroot, hheap, hnone⟩

theorem Alike.mem_equivalents_iff : y ∈ context'.graph.equivalents (l.renumber T.ahead) ↔
      ∃ x ∈ context.graph.equivalents l, Known T.Ours x ∧ y = x.renumber T.ahead := by
  -- One step both ways, then a chain of them.
  have hstep : ∀ {m}, Known T.Ours m → ∀ y, context'.graph.Linked (m.renumber T.ahead) y ↔
      ∃ x, Known T.Ours x ∧ context.graph.Linked m x ∧ y = x.renumber T.ahead := by
    intro m hm y
    constructor
    · rintro ⟨hthere, hback⟩
      obtain ⟨x, hx, rfl⟩ := (h.graph m hm y).1 hthere
      have hxknown := hclean.known_of_holds hx
      obtain ⟨m', hm', heq⟩ := (h.graph x hxknown _).1 hback
      rw [Lifetime.renumber_inj] at heq
      exact ⟨x, hxknown, ⟨hx, heq ▸ hm'⟩, rfl⟩
    · rintro ⟨x, hx, ⟨hthere, hback⟩, rfl⟩
      exact ⟨(h.graph m hm _).2 ⟨x, hthere, rfl⟩, (h.graph x hx _).2 ⟨m, hback, rfl⟩⟩
  have hchain : ∀ y, TransGen context'.graph.Linked (l.renumber T.ahead) y ↔
      ∃ x, Known T.Ours x ∧ TransGen context.graph.Linked l x ∧
        y = x.renumber T.ahead := by
    intro y
    constructor
    · intro hwalk
      induction hwalk with
      | single hfirst =>
        obtain ⟨x, hx, hadj, rfl⟩ := (hstep hl _).1 hfirst
        exact ⟨x, hx, .single hadj, rfl⟩
      | tail _ hlast ih =>
        obtain ⟨m, hm, hwalk, rfl⟩ := ih
        obtain ⟨x, hx, hadj, rfl⟩ := (hstep hm _).1 hlast
        exact ⟨x, hx, hwalk.tail hadj, rfl⟩
    · rintro ⟨x, hx, hwalk, rfl⟩
      induction hwalk with
      | single hfirst => exact .single ((hstep hl _).2 ⟨_, hx, hfirst, rfl⟩)
      | @tail m x hwalk hlast ih =>
        have hm : Known T.Ours m := hclean.known_of_holds hlast.2
        exact (ih hm).tail ((hstep hm _).2 ⟨x, hx, hlast, rfl⟩)
  simp only [Outlives.mem_equivalents_iff, hchain]
  constructor
  · rintro ⟨hne, x, hx, hwalk, rfl⟩
    exact ⟨x, ⟨fun heq => hne (heq ▸ rfl), hwalk⟩, hx, rfl⟩
  · rintro ⟨x, ⟨hne, hwalk⟩, hx, rfl⟩
    exact ⟨by simpa using hne, x, hx, hwalk, rfl⟩

theorem Alike.isHeapBacked_eq :
    isHeapBacked context'.graph (l.renumber T.ahead) = isHeapBacked context.graph l := by
  rw [Bool.eq_iff_iff]
  simp only [isHeapBacked, Bool.or_eq_true, any_eq_true_iff, h.mem_equivalents_iff hclean hl,
    Lifetime.isHeap_renumber]
  refine or_congr_right ⟨?_, ?_⟩
  · rintro ⟨_, ⟨x, hx, -, rfl⟩, hheap⟩
    exact ⟨x, hx, by simpa using hheap⟩
  · rintro ⟨x, hx, hheap⟩
    exact ⟨x.renumber T.ahead, ⟨x, hx, hclean.known_of_mem_equivalents hx, rfl⟩,
      by simpa using hheap⟩

/-- The slots that stand for the same data are the same in both runs. -/
theorem Alike.slots_eq :
    (context'.graph.equivalents (l.renumber T.ahead)).toList.filter Lifetime.isSlot =
      (context.graph.equivalents l).toList.filter Lifetime.isSlot := by
  rw [← ExtTreeSet.toList_filter, ← ExtTreeSet.toList_filter]
  congr 1
  refine ExtTreeSet.ext_mem fun slot => ?_
  simp only [← ExtTreeSet.mem_toList, ExtTreeSet.toList_filter, List.mem_filter]
  simp only [ExtTreeSet.mem_toList, h.mem_equivalents_iff hclean hl]
  constructor
  · rintro ⟨⟨x, hx, hknown, rfl⟩, hslot⟩
    rw [Lifetime.isSlot_renumber] at hslot
    rw [hknown.renumber_of_isSlot hslot]
    exact ⟨hx, hslot⟩
  · rintro ⟨hx, hslot⟩
    have hknown : Known T.Ours slot := hclean.known_of_mem_equivalents hx
    exact ⟨⟨slot, hx, hknown, (hknown.renumber_of_isSlot hslot _).symm⟩, hslot⟩

end

/-- What a variable of the runs holds on to is the same in both. -/
theorem Alike.capturedBy_eq (h : T.Alike context context') (hclean : Clean T.Ours context)
    (hpath : T.Ours path) :
    context'.captures.capturedBy path = context.captures.capturedBy path := by
  refine ExtTreeSet.ext_mem fun captured => ?_
  simp only [Captures.capturedBy, Digraph.mem_closure_iff]
  refine and_congr Iff.rfl ⟨fun hwalk => ?_, fun hwalk => ?_⟩
  · induction hwalk with
    | single hfirst => exact .single ((h.captures path hpath _).1 hfirst)
    | @tail m captured _ hlast ih =>
      obtain ⟨holder, -, hadj⟩ := TransGen.tail'_iff.1 ih
      exact ih.tail ((h.captures m (hclean.captures _ _ hadj).2 _).1 hlast)
  · induction hwalk with
    | single hfirst => exact .single ((h.captures path hpath _).2 hfirst)
    | @tail m captured _ hlast ih =>
      exact ih.tail ((h.captures m (hclean.captures _ _ hlast).1 _).2 hlast)

end Queries

/-! ## Steps of the two runs -/

variable {α β : Type} {R : α → α → Prop} {Q : β → β → Prop}

/-- The two runs end with the same abort, or with corresponding states and results. -/
def Corresponds (T : Twins env) (R : α → α → Prop) :
    EStateM.Result Abort State α → EStateM.Result Abort State α → Prop
  | .ok a s, .ok b t => R a b ∧ T.Sim s t
  | .error abort _, .error abort' _ => abort = abort'
  | _, _ => False

/-- From corresponding states, the two steps come to the same abort, or to such states again. -/
def Agree (T : Twins env) (step step' : FlowM α) (R : α → α → Prop) : Prop :=
  ∀ s t, T.Sim s t → T.Corresponds R (step s) (step' t)

namespace Agree

theorem pure {a b : α} (h : R a b) : T.Agree (pure a) (pure b) R := fun _ _ hsim => ⟨h, hsim⟩

theorem bind {step step' : FlowM α} {next next' : α → FlowM β} (h : T.Agree step step' R)
    (h' : ∀ a b, R a b → T.Agree (next a) (next' b) Q) :
    T.Agree (step >>= next) (step' >>= next') Q := by
  intro s t hsim
  have hstep := h s t hsim
  change T.Corresponds Q (EStateM.bind step next s) (EStateM.bind step' next' t)
  unfold EStateM.bind
  cases hs : step s with
  | ok a s₁ =>
    cases ht : step' t with
    | ok b t₁ =>
      rw [hs, ht] at hstep
      exact h' a b hstep.1 s₁ t₁ hstep.2
    | error abort t₁ =>
      rw [hs, ht] at hstep
      exact hstep.elim
  | error abort s₁ =>
    cases ht : step' t with
    | ok b t₁ =>
      rw [hs, ht] at hstep
      exact hstep.elim
    | error abort' t₁ =>
      rw [hs, ht] at hstep
      exact hstep

theorem throw {abort : Abort} : T.Agree (throw abort) (throw abort) R := fun _ _ _ => rfl

theorem get : T.Agree get get T.Sim := fun _ _ hsim => ⟨hsim, hsim⟩

theorem weaken {R' : α → α → Prop} {step step' : FlowM α} (h : T.Agree step step' R)
    (himp : ∀ a b, R a b → R' a b) : T.Agree step step' R' := by
  intro s t hsim
  have hstep := h s t hsim
  revert hstep
  cases step s <;> cases step' t <;> intro hstep
  · exact ⟨himp _ _ hstep.1, hstep.2⟩
  · exact hstep
  · exact hstep
  · exact hstep

/-- A check whose result in the second run is the result of the first, renumbered. -/
theorem liftMap {result result' : Except Fault α} {f : α → α} (heq : result' = result.map f)
    (h : ∀ a, result = .ok a → R a (f a)) : T.Agree (liftM result) (liftM result') R := by
  subst heq
  cases result with
  | error fault => exact throw
  | ok a => exact pure (h a rfl)

/-! ### Elementary steps -/

theorem modifyContext {f f' : Context → Context}
    (hclean : ∀ context, Clean T.Ours context → Clean T.Ours (f context))
    (halike : ∀ context context', T.Alike context context' →
      T.Alike (f context) (f' context')) :
    T.Agree (modifyContext f) (modifyContext f') fun _ _ => True :=
  fun s t hsim => ⟨trivial, { hsim with
    clean := hclean s.context hsim.clean
    alike := halike s.context t.context hsim.alike }⟩

theorem relevant_renumber {n : Nat} :
    Outlives.Relevant (l.renumber n) (k.renumber n) ↔ Outlives.Relevant l k := by
  simp [Outlives.Relevant]

theorem stores {E E' : Lifetime → Lifetime → Prop} {f f' : Outlives → Outlives}
    (hadds : ∀ G, Outlives.Adds E G (f G)) (hadds' : ∀ G, Outlives.Adds E' G (f' G))
    (hknown : ∀ c x, E c x → (Known T.Ours c ∨ c = .heap) ∧ Known T.Ours x)
    (hsame : ∀ c y, E' (c.renumber T.ahead) y ↔ ∃ x, E c x ∧ y = x.renumber T.ahead) :
    T.Agree (Flow.modifyContext fun context => { context with graph := f context.graph })
      (Flow.modifyContext fun context => { context with graph := f' context.graph })
      fun _ _ => True := by
  refine modifyContext (fun context h => { h with graph := ?_ }) fun context context' h =>
    { h with graph := ?_ }
  · intro c x hx
    rcases (hadds _ c x).1 hx with ⟨hE, hrelevant⟩ | hold
    · exact ⟨hrelevant.2.2, hknown c x hE⟩
    · exact h.graph c x hold
  · intro c hc y
    simp only [(hadds' _ _ _).eq, (hadds _ _ _).eq, hsame, h.graph c hc y]
    constructor
    · rintro (⟨⟨x, hE, rfl⟩, hrelevant⟩ | ⟨x, hx, rfl⟩)
      · exact ⟨x, .inl ⟨hE, relevant_renumber.1 hrelevant⟩, rfl⟩
      · exact ⟨x, .inr hx, rfl⟩
    · rintro ⟨x, ⟨hE, hrelevant⟩ | hx, rfl⟩
      · exact .inl ⟨⟨x, hE, rfl⟩, relevant_renumber.2 hrelevant⟩
      · exact .inr ⟨x, hx, rfl⟩

/-- Storing the same data in many containers, which need not come in the same order in both runs. -/
theorem storeInAll {written : Lifetime} {holders holders' : List Lifetime}
    (hwritten : Known T.Ours written) (hholders : ∀ holder ∈ holders, Known T.Ours holder)
    (hmem : ∀ l, l ∈ holders' ↔ ∃ holder ∈ holders, l = holder.renumber T.ahead) :
    T.Agree (holders.forM fun holder => store written holder)
      (holders'.forM fun holder => store (written.renumber T.ahead) holder) fun _ _ => True := by
  have heq : ∀ (data : Lifetime) (containers : List Lifetime),
      (containers.forM fun holder => store data holder) = Flow.modifyContext fun context =>
        { context
            with graph :=
            containers.foldl (fun graph holder => graph.store data holder) context.graph } := by
    intro data containers
    induction containers with
    | nil => rfl
    | cons holder containers ih =>
      change (store data holder >>= fun _ => containers.forM fun holder => store data holder) = _
      rw [ih]
      rfl
  have hadds : ∀ (data : Lifetime) (containers : List Lifetime) (graph : Outlives),
      Outlives.Adds (fun c x => c ∈ containers ∧ x = data) graph
        (containers.foldl (fun graph holder => graph.store data holder) graph) := by
    intro data containers
    induction containers with
    | nil => simp [Outlives.Adds]
    | cons holder containers ih =>
      intro graph
      refine ((Outlives.adds_store graph data holder none).trans (ih _)).congr fun c x => ?_
      simp [or_and_right]
  rw [heq, heq]
  refine stores (hadds _ _) (hadds _ _) ?_ fun c y => ?_
  · rintro c _ ⟨hc, rfl⟩
    exact ⟨.inl (hholders c hc), hwritten⟩
  · simp [hmem]

theorem store {stored container : Lifetime} {ty? : Option Ty} (hstored : Known T.Ours stored)
    (hcontainer : Known T.Ours container ∨ container = .heap) :
    T.Agree (store stored container ty?)
    (store (stored.renumber T.ahead) (container.renumber T.ahead) ty?) fun _ _ => True := by
  refine .stores (Outlives.adds_store · stored container ty?) (Outlives.adds_store · _ _ ty?)
    ?_ fun c y => ?_
  · rintro c x ⟨rfl, rfl⟩
    exact ⟨hcontainer, hstored⟩
  · simp

theorem storeInSupport {s t : State} {written l : Lifetime} (hsim : T.Sim s t)
    (hwritten : Known T.Ours written) (hl : Known T.Ours l) :
    T.Agree ((s.context.graph.supportOf l).toList.forM fun holder => Flow.store written holder)
      ((t.context.graph.supportOf (l.renumber T.ahead)).toList.forM fun holder =>
        Flow.store (written.renumber T.ahead) holder) fun _ _ => True := by
  refine .storeInAll hwritten (fun holder hholder => ?_) fun y => ?_
  · have hreach := (Outlives.mem_supportOf_iff_reaches.1 (ExtTreeSet.mem_toList.1 hholder)).2
    exact hsim.clean.known_of_reaches hl hreach
  · simp only [ExtTreeSet.mem_toList, hsim.alike.mem_supportOf_iff hsim.clean hl]

theorem expose (hpath : T.Ours path) : T.Agree (expose path) (expose path) fun _ _ => True := by
  refine .modifyContext (fun context h => { h with exposed := fun other hother => ?_ })
      fun context context' h =>
    { h with exposed := fun other hother => ?_ }
  · rcases ExtTreeSet.mem_insert.1 hother with heq | hold
    · exact Std.compare_eq_iff_eq.1 heq ▸ hpath
    · exact h.exposed other hold
  · have hold := h.exposed other hother
    simp only [Context.isExposed, ExtTreeSet.contains_insert] at hold ⊢
    rw [Bool.eq_iff_iff] at hold ⊢
    simp only [List.any_eq_true, Bool.or_eq_true] at hold ⊢
    grind

theorem capture {captured : PathSet} {holder : Path} (hholder : T.Ours holder)
    (hcaptured : ∀ path ∈ captured, T.Ours path) :
    T.Agree (capture captured holder) (capture captured holder) fun _ _ => True := by
  refine .modifyContext (fun context h => { h with captures := fun other path hpath => ?_ })
      fun context context' h =>
    { h with captures := fun other hother path => ?_ }
  · rcases Captures.adj_foldl_record_iff.1 hpath with ⟨rfl, hmem, -⟩ | hold
    · exact ⟨hholder, hcaptured path (ExtTreeSet.mem_toList.1 hmem)⟩
    · exact h.captures other path hold
  · rw [Captures.adj_foldl_record_iff, Captures.adj_foldl_record_iff, h.captures other hother path]

theorem log {write : HeapWrite} (hcontainer : Known T.Ours write.container)
    (hstored : Known T.Ours write.stored) : T.Agree
    (Flow.modifyContext fun context => { context with heapWrites := context.heapWrites ++ [write] })
      (Flow.modifyContext fun context =>
        { context with heapWrites := context.heapWrites ++ [write.renumber T.ahead] })
        fun _ _ => True := by
  refine .modifyContext (fun _ h => { h with heapWrites := fun other hother => ?_ }) fun _ _ h =>
    { h with heapWrites := by simp [h.heapWrites] }
  rcases List.mem_append.1 hother with hold | hnew
  · exact h.heapWrites other hold
  · rw [List.mem_singleton.1 hnew]
    exact ⟨hcontainer, hstored⟩

/-- The second run gives out the same version with a higher number. -/
theorem newVersion (hpath : T.Ours path) : T.Agree (newVersion path) (newVersion path) fun a b =>
    b = a.renumber T.ahead ∧ Known T.Ours a ∧ a.isNone = false := by
  refine bind get fun s t hsim =>
    bind (modifyContext (fun _ h => { h with nextVersion := Nat.succ_pos _ })
    fun _ _ h => { h with nextVersion := ?_ }) fun _ _ _ =>
      pure ⟨?_, .inr ⟨hpath, ?_, fun _ => ⟨rfl, rfl⟩⟩, rfl⟩
  · have hahead := h.nextVersion
    dsimp only
    omega
  · have hpos := hsim.clean.nextVersion
    rw [Lifetime.renumber, if_neg (by dsimp only; omega), hsim.alike.nextVersion]
  · simp [Lifetime.heap]

/-! ### The frame -/

theorem declare {extent : Extent} (hpath : T.Ours path) (hextent : T.Admits extent) :
    T.Agree (declare path extent) (declare path (extent.renumber T.ahead)) fun _ _ => True := by
  refine fun s t hsim =>
    ⟨trivial, { hsim with frame := ?_, bindings := fun q found hfound => ?_ }⟩
  · rw [Frame.renumber_declare, ← hsim.frame]
  · rw [Frame.lookup?_declare] at hfound
    split at hfound
    · rename_i heq
      cases hfound
      exact ⟨heq ▸ hpath, hextent⟩
    · exact hsim.bindings q found hfound

theorem rebind {extent : Extent} (hpath : T.Ours path) (hextent : T.Admits extent) :
    T.Agree (rebind path extent) (rebind path (extent.renumber T.ahead)) fun _ _ => True := by
  refine bind get fun s t hsim => ?_
  refine bind (liftMap (R := fun frame frame' => s.frame.rebind path extent = .ok frame ∧
    frame' = frame.renumber T.ahead) ?_ fun frame hframe =>
    ⟨hframe, rfl⟩) fun frame frame' hframe => ?_
  · rw [hsim.frame, Frame.rebind_renumber]
  · obtain ⟨hframe, rfl⟩ := hframe
    refine fun s₁ t₁ hsim₁ =>
      ⟨trivial, { hsim₁ with frame := rfl, bindings := fun q found hfound => ?_ }⟩
    rw [Frame.lookup?_rebind hframe] at hfound
    split at hfound
    · rename_i heq
      cases hfound
      exact ⟨heq ▸ hpath, hextent⟩
    · exact hsim.bindings q found hfound

theorem adopt {version slot : Lifetime} (hversion : Known T.Ours version)
    (hsome : version.isNone = false) (hslot : Known T.Ours slot) :
    T.Agree (adopt version slot) (adopt (version.renumber T.ahead) (slot.renumber T.ahead))
    fun _ _ => True := by
  unfold Flow.adopt
  rw [Lifetime.path_renumber]
  have hrebind : T.Agree (Flow.rebind version.path ⟨version, slot⟩) (Flow.rebind version.path _)
      fun _ _ => True :=
    .rebind (hversion.ours hsome) ⟨hversion, hslot⟩
  refine .bind hrebind fun _ _ _ =>
    .modifyContext (fun _ h => { h with rebound := fun entry hentry => ?_ }) fun _ _ h =>
      { h with rebound := by simp [h.rebound] }
  rcases List.mem_append.1 hentry with hold | hnew
  · exact h.rebound entry hold
  · rw [List.mem_singleton.1 hnew]
    exact hversion

theorem within {enter : Frame → Frame} {steps steps' : FlowM Unit}
    (henter : enter = Frame.child ∨ enter = Frame.loopBody)
    (h : T.Agree steps steps' fun _ _ => True) :
    T.Agree (within enter steps) (within enter steps') fun a b => b = Bundle.renumber T.ahead a ∧
      ∀ (path : Path) (extent : Extent), a[path]? = some extent → T.Ours path ∧
      T.Admits extent := by
  -- The scope is entered with the frames of the start and left with them: what the steps inside did
  -- to their own frame is given back as changes.
  refine .bind .get fun s t hsim => ?_
  refine .bind (R := fun _ _ => True) (fun s₁ t₁ hsim₁ => ⟨trivial, { hsim₁ with
    frame :=
      ?_, bindings := fun path extent hextent => hsim.bindings path extent ?_ }⟩) fun _ _ _ => ?_
  · rw [hsim.frame]
    rcases henter with rfl | rfl <;> simp
  · rcases henter with rfl | rfl <;> simpa using hextent
  · refine .bind h fun _ _ _ => .bind .get fun s₂ t₂ hsim₂ => ?_
    refine .bind (R := fun _ _ => True) (fun s₃ t₃ hsim₃ => ⟨trivial, { hsim₃ with
      frame := hsim.frame, bindings :=
        hsim.bindings }⟩) fun _ _ _ => .pure ⟨?_, fun path extent hextent => ?_⟩
    · rw [hsim₂.frame, Frame.rebindings_renumber]
    · exact hsim₂.bindings path extent (Frame.lookup?_of_rebindings hextent)

/-! ### Results -/

theorem flowOf? : T.Agree (flowOf? id) (flowOf? id) fun a b =>
    b = a.map (NodeFlow.renumber T.ahead) ∧ ∀ flow ∈ a, T.Bundled flow.bundle ∧
      ∀ path ∈ flow.escaping, T.Ours path := by
  refine bind get fun s t hsim => liftMap ?_ fun flow? hflow? => ⟨rfl, fun flow hflow => ?_⟩
  · rw [hsim.recorded, OwnerFlow.get_renumber]
  · refine hsim.results id flow ?_
    unfold Arena.get at hflow?
    split at hflow? <;> simp_all

theorem record {bundle : Bundle} {escaping : PathSet} (hbundle : T.Bundled bundle)
    (hescaping : ∀ path ∈ escaping, T.Ours path) : T.Agree (record id bundle escaping)
    (record id (Bundle.renumber T.ahead bundle) escaping) fun _ _ => True := by
  refine .bind .flowOf? fun flow? _ h => ?_
  obtain ⟨rfl, -⟩ := h
  -- A node that has its result is refused in both runs.
  cases flow? with
  | some flow => exact .bind (R := fun _ _ => False) .throw fun _ _ h => h.elim
  | none =>
    refine .bind .get fun s t hsim => ?_
    refine .bind
      (.liftMap (R := fun a b => s.recorded.set id (some ⟨bundle, escaping⟩) = .ok a ∧
      b = OwnerFlow.renumber T.ahead a) ?_ fun recorded hrecorded => ⟨hrecorded, rfl⟩)
      fun recorded recorded' hrecorded => ?_
    · rw [hsim.recorded]
      exact OwnerFlow.set_renumber s.recorded id ⟨bundle, escaping⟩
    · obtain ⟨hrecorded, rfl⟩ := hrecorded
      refine fun s₁ t₁ hsim₁ => ⟨trivial, { hsim₁ with
        recorded := rfl, results := fun other flow hflow => ?_ }⟩
      rw [Arena.get?_set hrecorded] at hflow
      split at hflow
      · cases hflow
        exact ⟨hbundle, hescaping⟩
      · exact hsim.results other flow hflow

end Agree

/-! ## The analysis in two runs -/

/-- The variables that the nodes name lie below the path of the function. -/
def NamesInside (env : Env) : Prop :=
  ∀ id node path, env.node id = .ok node → node.expr.Names path →
    path.startsWith env.scope = true

/-- The two runs, step by step. -/
def coupling (T : Twins env) (hnames : NamesInside env) (id : NodeId) : Coupling env id where
  ahead := T.ahead
  Ours := T.Ours
  Known := Known T.Ours
  Sim := T.Sim
  Agree := T.Agree
  names := fun hnode hexpr m => T.ours _ (Path.startsWith_append (hnames _ _ _ hnode hexpr) m)
  ours_tempPath := fun kind m => ours_tempPath kind id m
  ours := fun h => h.ours
  known_none := .inl rfl
  known_region := fun kind => known_region kind id
  known := fun hpath horigin hversion =>
      .inr ⟨hpath, fun h => horigin (congrArg Lifetime.origin h), hversion⟩
  pure := .pure
  bind := .bind
  throw := .throw
  weaken := .weaken
  get := .get
  flowOf? := .flowOf?
  -- Which regions there are decides nothing.
  newRoot := .bind (.modifyContext (fun _ h => { h with }) fun _ _ h => { h with }) fun _ _ _ =>
    .pure ⟨rfl, rfl⟩
  store := .store
  storeInSupport := .storeInSupport
  expose := .expose
  capture := .capture
  log := .log
  declare := .declare
  rebind := .rebind
  newVersion := .newVersion
  adopt := .adopt
  within := .within
  record := .record
  frame := (·.frame)
  bindings := fun hsim => hsim.bindings _ _
  exposed := fun hsim => hsim.alike.exposed _
  captured := fun hsim => hsim.alike.capturedBy_eq hsim.clean
  rootsOf := fun hsim => hsim.alike.rootsOf_eq hsim.clean
  backed := fun hsim => hsim.alike.isHeapBacked_eq hsim.clean
  slots := fun hsim => hsim.alike.slots_eq hsim.clean
  rebound := fun hsim hsim₁ => by
    rw [hsim₁.alike.rebound, hsim.alike.rebound, List.length_append, List.length_map,
      ← List.drop_drop, List.drop_left, List.map_drop]
  known_rebound := (·.clean.rebound)
  heapWrites := fun hsim hsim₁ => by
    rw [hsim₁.alike.heapWrites, hsim.alike.heapWrites, List.length_append, List.length_map,
      ← List.drop_drop, List.drop_left, List.map_drop]
  known_heapWrites := (·.clean.heapWrites)

theorem analyzeNode (hnames : NamesInside env) (depth : Nat) (position : Position) (id : NodeId) :
    (T.coupling hnames id).Match (analyzeNode env depth position id)
    (analyzeNode env depth position id) := by
  induction depth generalizing position id with
  | zero => exact Agree.throw
  | succ depth ih =>
    refine Coupling.bindMap (T.coupling hnames id).flowOf? fun flow? _ => ?_
    rw [Option.isSome_map]
    split
    · exact Coupling.done
    · exact Coupling.bindLift fun node hnode => Coupling.rule hnode fun position child _ =>
        ih position child

theorem analyzeFunction (hnames : NamesInside env) {function : Function}
    (hinside : ∀ parameter ∈ function.parameters, parameter.path.startsWith env.scope = true) :
    T.Agree (analyzeFunction env function) (analyzeFunction env function) fun _ _ => True := by
  let C := T.coupling hnames function.body
  have hparameters : C.Match (declareParameters env function.parameters)
      (declareParameters env function.parameters) :=
    Coupling.declareParameters fun parameter hparameter m =>
      T.ours _ (Path.startsWith_append (hinside parameter hparameter) m)
  refine Agree.bind hparameters fun _ _ _ => Agree.bind (analyzeNode hnames _ _ _) fun _ _ _ => ?_
  split
  · exact Agree.pure trivial
  · exact Coupling.checkReturn (C := C)

end Twins
end Flow
end Regions
