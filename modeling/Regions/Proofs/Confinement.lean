import Mathlib.Data.List.Pairwise
import Regions.Proofs.Drafting.Paths
import Regions.Proofs.Soundness

/-!
# Functions keep to themselves

The graph of storings is shared by all functions of a program, but a function only ever stores its
own data: in storage of its own, or in the heap when it returns. What was checked about the data of
one function therefore holds until the end, whatever the other functions do.

* `confined`: the discipline of a function;
* `Settled`: what is known about the functions analysed so far, and that it stays so;
* `returns_safe_of_analyze`: what an accepted program returns is safe in the final graph.
-/

namespace Regions

/-- Neither path lies at or below the other. -/
def Path.Apart (p q : Path) : Prop :=
  p.startsWith q = false ∧ q.startsWith p = false

instance (p q : Path) : Decidable (p.Apart q) :=
  inferInstanceAs (Decidable (_ ∧ _))

theorem Path.Apart.symm {p q : Path} (h : p.Apart q) : q.Apart p := ⟨h.2, h.1⟩

theorem Path.Apart.not_startsWith {p q path : Path} (h : p.Apart q)
    (hp : path.startsWith p = true) : path.startsWith q = false := by
  by_contra hq
  rw [Bool.not_eq_false] at hq
  simp only [startsWith, List.isPrefixOf_iff_prefix] at hp hq
  rcases List.prefix_or_prefix_of_prefix hp hq with hle | hle
  · have := h.2
    simp [startsWith, List.isPrefixOf_iff_prefix.2 hle] at this
  · have := h.1
    simp [startsWith, List.isPrefixOf_iff_prefix.2 hle] at this

namespace Flow

variable {env : Env} {s s' : State} {function : Function} {known : Outlives}

/-! ## The discipline of a function -/

theorem startsWith_tempPath (kind : String) (id : NodeId) (m : Path) :
    (env.tempPath kind id ++ m).startsWith env.scope = true :=
  Path.startsWith_append (Path.startsWith_child (Path.startsWith_self _) _) m

/-- The lifetimes at paths of a territory. The heap is none of them. -/
def Within (territory : Path → Prop) (l : Lifetime) : Prop :=
  territory l.path ∧ l ≠ .heap

/-- The lifetimes of a function have paths below its own. -/
def Own (env : Env) : Lifetime → Prop :=
  Within fun path => path.startsWith env.scope = true

variable {territory : Path → Prop}

/-- Every storing is one that was known before, or one of data of the territory: in storage of the
territory, or in the heap. The function lies in the territory, and what was known leads nowhere
else. -/
def confined (env : Env) (territory : Path → Prop)
    (hscope : ∀ path : Path, path.startsWith env.scope = true → territory path)
    (known : Outlives) (base : Nat) (hknown : ∀ c x, known.Holds c x → c.isNone = false ∧
      (Within territory c → x.Slotted ∧ Within territory x)) : Discipline env where
  Valid := fun _ _ l => l.Slotted ∧ (l.isNone = true ∨ Within territory l)
  Holder := fun _ _ l => l.isNone = true ∨ Within territory l
  Edge := fun _ _ c x => known.Holds c x ∨
    c.isNone = false ∧ (c = .heap ∨ Within territory c) ∧ x.Slotted ∧ Within territory x
  Named := territory
  Bare := fun _ => True
  base := base
  least := 0
  valid_later := fun _ _ h => h
  edge_later := fun _ _ h => h
  edge := fun hc hx hc' hx' =>
    .inr ⟨hc', .inr (hc.resolve_left (by simp [hc'])), hx.1, hx.2.resolve_left (by simp [hx'])⟩
  edge_heap := fun hx hx' => .inr ⟨rfl, .inl rfl, hx.1, hx.2.resolve_left (by simp [hx'])⟩
  holder_of_valid := fun h => h.2
  holder_of_edge := by
    rintro cur s c x hc (hedge | ⟨-, -, hx⟩)
    · obtain ⟨hsome, hinside⟩ := hknown c x hedge
      exact .inr (hinside (hc.resolve_left (by simp [hsome]))).2
    · exact .inr hx.2
  slotted := fun h => h.1
  named_of_slot := by
    rintro cur s l ⟨-, hnone | hown⟩ hslot
    · simp_all [Lifetime.isNone, Lifetime.isSlot]
    · exact hown.1
  valid_none := ⟨Lifetime.slotted_none, .inl rfl⟩
  valid_temp := fun kind m role _ => ⟨Lifetime.slotted_of_origin (by simp),
    .inr ⟨hscope _ (startsWith_tempPath kind _ m), by simp [Lifetime.heap]⟩⟩
  valid_region := fun kind m origin _ _ => by
    refine ⟨Lifetime.slotted_root _ _,
      .inr ⟨hscope _ (startsWith_tempPath kind _ m), fun h => ?_⟩⟩
    exact tempPath_ne_heap kind _ m (congrArg Lifetime.path h)
  valid_variable := by
    rintro cur s path origin hnamed horigin -
    refine ⟨Lifetime.slotted_root _ _, .inr ⟨hnamed, fun h => ?_⟩⟩
    have := congrArg Lifetime.origin h
    rcases horigin with rfl | rfl <;> cases this
  valid_version := fun hnamed _ =>
    ⟨Lifetime.slotted_of_origin (by simp), .inr ⟨hnamed, by simp [Lifetime.heap]⟩⟩

section Territory

variable {hterritory : ∀ path : Path, path.startsWith env.scope = true → territory path}
  {base : Nat}
  {hknown : ∀ c x, known.Holds c x → c.isNone = false ∧
    (Within territory c → x.Slotted ∧ Within territory x)}

theorem namesVariables_confined (hinside : env.owner.Inside function)
    (hscope : env.scope = function.path) :
    (confined env territory hterritory known base hknown).NamesVariables := by
  intro id node path value hnode hexpr
  refine ⟨fun m => hterritory _ (Path.startsWith_append ?_ m), fun _ _ _ _ _ _ _ => trivial⟩
  rw [hscope]
  exact hinside.declared id node path value (env_node_eq_ok_iff.1 hnode) hexpr

theorem namesParameters_confined (hinside : env.owner.Inside function)
    (hscope : env.scope = function.path) :
    (confined env territory hterritory known base hknown).NamesParameters function.parameters := by
  intro p hp
  refine ⟨fun m => hterritory _ (Path.startsWith_append ?_ m), fun _ _ _ _ _ => trivial⟩
  rw [hscope]
  exact hinside.parameters p hp

end Territory

/-- A function adds storings of its territory only. -/
theorem within_of_runs {context : Context} {size : Nat} (hinside : env.owner.Inside function)
    (hscope : env.scope = function.path)
    (hterritory : ∀ path : Path, path.startsWith env.scope = true → territory path)
    (hknown : ∀ c x, context.graph.Holds c x → c.isNone = false ∧
      (Within territory c → x.Slotted ∧ Within territory x))
    (hrun : Runs (analyzeFunction env function) (.start context size) () s') {c x : Lifetime}
    (hx : s'.context.graph.Holds c x) : context.graph.Holds c x ∨
      c.isNone = false ∧ (c = .heap ∨ Within territory c) ∧ x.Slotted ∧
      Within territory x := by
  let D := confined env territory hterritory context.graph context.rebound.length hknown
  have hstart : D.Inv none (.start context size) :=
    Discipline.inv_start rfl (Nat.zero_le _) fun c x hx => .inl hx
  have hend := Discipline.inv_of_analyzeFunction (namesVariables_confined hinside hscope)
    (namesParameters_confined hinside hscope) hstart hrun
  exact hend.graph c x hx

/-! ## What is returned -/

/-- What the function returns has a place in the heap and rests on no region. -/
def ReturnsSafe (graph : Outlives) (path : Path) (returned : Bundle) : Prop :=
  ∀ l ∈ returned.tracked, l.path.startsWith path = true ∧ l ≠ .heap ∧
    graph.Holds .heap l ∧ ∀ root, root ∉ graph.rootsOf l

/-- A function that is analysed in full adds storings of its own only, and returns what is safe. -/
theorem confined_of_runs {context : Context} {size : Nat} (hinside : env.owner.Inside function)
    (hscope : env.scope = function.path)
    (hknown : ∀ c x, context.graph.Holds c x → c.isNone = false ∧ ¬ Own env c)
    (hrun : Runs (analyzeFunction env function) (.start context size) () s') :
    (∀ c x, s'.context.graph.Holds c x → context.graph.Holds c x ∨
      c.isNone = false ∧ (c = .heap ∨ Own env c) ∧ Own env x) ∧
    (function.returns.isVoid = false → ∃ flow, s'.flowAt function.body = some flow ∧
      ReturnsSafe s'.context.graph function.path flow.bundle) := by
  have hleads : ∀ c x, context.graph.Holds c x → c.isNone = false ∧
      (Own env c → x.Slotted ∧ Own env x) :=
    fun c x hx => (hknown c x hx).imp_right fun hother hown => absurd hown hother
  let D := confined env (fun path => path.startsWith env.scope = true) (fun _ h => h) context.graph
    context.rebound.length hleads
  have hstart : D.Inv none (.start context size) :=
    Discipline.inv_start rfl (Nat.zero_le _) fun c x hx => .inl hx
  refine ⟨fun c x hx => ?_, fun hvoid => ?_⟩
  · exact (within_of_runs hinside hscope (fun _ h => h) hleads hrun hx).imp_right fun h =>
      ⟨h.1, h.2.1, h.2.2.2⟩
  simp only [analyzeFunction, runs_bind_iff, hvoid, Bool.false_eq_true, if_false] at hrun
  obtain ⟨_, s₀, hdeclared, _, s₁, hbody, hreturn⟩ := hrun
  have hnames : D.NamesVariables := namesVariables_confined hinside hscope
  have hs₀ := Discipline.inv_of_declareParameters hnames (namesParameters_confined hinside hscope)
    hstart hdeclared
  have hs₁ := Discipline.inv_of_analyzeNode hnames hs₀ hbody
  obtain ⟨flow, hflow, -, rfl⟩ := runs_checkReturn_iff.1 hreturn
  have hadds := adds_storeAll s₁.context.graph flow.bundle.tracked .heap
  refine ⟨flow, hflow, fun l hl => ?_⟩
  obtain ⟨hvalid, hsome⟩ := (hs₁.recorded _ _ hflow).tracked hl
  have hown := hvalid.2.resolve_left (by simp [hsome])
  refine ⟨hscope ▸ hown.1, hown.2,
    (hadds .heap l).2 (.inl ⟨⟨rfl, hl⟩, hown.2, hsome, rfl⟩), ?_⟩
  intro root hroot
  rw [Outlives.mem_rootsOf_iff] at hroot
  -- Nothing of the function rests on the heap, so the new storings lead nowhere.
  rcases hadds.reaches_or hroot.1 with hold | ⟨c, x, ⟨rfl, -⟩, hheap⟩
  · exact not_mem_rootsOf_of_checkReturn hreturn hflow hl root
      (Outlives.mem_rootsOf_iff.2 ⟨hold, hroot.2⟩)
  · have hsettled := hs₁.holder_of_reaches (D.holder_of_valid hvalid) hheap
    exact (hsettled.resolve_left (by simp [Lifetime.isNone, Lifetime.heap])).2 rfl

/-! ## One function after the other -/

/-- What is known when the owners have been analysed. -/
structure Settled (owners : List Owner) (results : ProgramFlow) : Prop where
  /-- Data is stored in storage of the same function, or in the heap. -/
  confined : ∀ c x, results.context.graph.Holds c x → c.isNone = false ∧ x ≠ .heap ∧
    (c = .heap ∨ ∃ function ∈ owners.filterMap Owner.function?,
      c.path.startsWith function.path = true ∧ x.path.startsWith function.path = true)
  /-- What was returned is safe. -/
  returns : ∀ owner ∈ owners, ∀ function, owner.kind = .function function →
    function.returns.isVoid = false → ∃ returned,
      results.lifetimes (owner.ref function.body) = .ok returned ∧
      ReturnsSafe results.context.graph function.path returned

/-- Data of a function keeps its regions when storings of another function are added. -/
theorem ReturnsSafe.mono {graph : Outlives} {path other : Path} {returned : Bundle}
    (h : ReturnsSafe known path returned) (hbelow : known.Below graph)
    (hconfined : ∀ c x, known.Holds c x → c.path.startsWith path = true → c ≠ .heap →
      x.path.startsWith path = true ∧ x ≠ .heap)
    (hapart : path.Apart other) (hnew : ∀ c x, graph.Holds c x →
      known.Holds c x ∨ c = .heap ∨ c.path.startsWith other = true) :
    ReturnsSafe graph path returned := by
  intro l hl
  obtain ⟨hpath, hheap, hstored, hroots⟩ := h l hl
  refine ⟨hpath, hheap, hbelow _ _ hstored, fun root hroot => ?_⟩
  rw [Outlives.mem_rootsOf_iff] at hroot
  have hreach : ∀ k, graph.Reaches l k →
      known.Reaches l k ∧ k.path.startsWith path = true ∧ k ≠ .heap := by
    intro k hk
    induction hk with
    | refl => exact ⟨.refl known l, hpath, hheap⟩
    | @tail m k _ hstep ih =>
      obtain ⟨hm, hmpath, hmheap⟩ := ih
      rcases hnew m k hstep with hold | rfl | hother
      · exact ⟨hm.trans (.of_holds hold), hconfined m k hold hmpath hmheap⟩
      · exact absurd rfl hmheap
      · rw [hapart.not_startsWith hmpath] at hother
        cases hother
  exact hroots root (Outlives.mem_rootsOf_iff.2 ⟨(hreach root hroot.1).1, hroot.2⟩)

/-! ### Results of owners -/

section Results

variable {results : ProgramFlow} {index : Nat} {flow : OwnerFlow} {context : Context}
  {ref : NodeRef}

theorem lifetimes_insert_of_ne (hne : ref.owner.index ≠ index) :
    ({ owners := results.owners.insert index flow, context } : ProgramFlow).lifetimes ref =
      results.lifetimes ref := by
  have hget : (results.owners.insert index flow)[ref.owner.index]? =
      results.owners[ref.owner.index]? := by
    rw [Std.ExtTreeMap.getElem?_insert, if_neg]
    simpa using Ne.symm hne
  simp only [ProgramFlow.lifetimes, ProgramFlow.flow?, hget]

theorem lifetimes_insert_self {found : NodeFlow} (hindex : ref.owner.index = index)
    (h : flow.get? ref.node = some (some found)) :
    ({ owners := results.owners.insert index flow, context } : ProgramFlow).lifetimes ref =
      .ok found.bundle := by
  have hget : (results.owners.insert index flow)[ref.owner.index]? = some flow := by
    rw [hindex, Std.ExtTreeMap.getElem?_insert_self]
  simp [ProgramFlow.lifetimes, ProgramFlow.flow?, hget, h]

end Results

/-! ### The run over the owners -/

variable {decls : Declarations} {options : Options} {owners : List Owner} {owner : Owner}
  {results next : ProgramFlow}

/-- Two functions that are apart have no storing in common. -/
theorem Settled.inside (h : Settled owners results) {f : Function}
    (hf : f ∈ owners.filterMap Owner.function?)
    (hapart : (owners.filterMap Owner.function?).Pairwise fun f g => f.path.Apart g.path)
    {c x : Lifetime} (hx : results.context.graph.Holds c x) (hc : c.path.startsWith f.path = true)
    (hheap : c ≠ .heap) : x.path.startsWith f.path = true ∧ x ≠ .heap := by
  obtain ⟨-, hx', hc' | ⟨g, hg, hcg, hxg⟩⟩ := h.confined c x hx
  · exact absurd hc' hheap
  · by_cases heq : f = g
    · exact ⟨heq ▸ hxg, hx'⟩
    · have : Std.Symm fun f g : Function => f.path.Apart g.path := ⟨fun _ _ => Path.Apart.symm⟩
      rw [(hapart.forall hf hg heq).not_startsWith hc] at hcg
      cases hcg

/-- The analysis of one more owner keeps what is known about those before. -/
theorem Settled.step (h : Settled owners results)
    (hids : ∀ other ∈ owners, other.id.index ≠ owner.id.index)
    (hinside : ∀ function, owner.kind = .function function → owner.Inside function)
    (hapart : ((owners ++ [owner]).filterMap Owner.function?).Pairwise fun f g =>
      f.path.Apart g.path)
    (hrun : analyzeOwner decls options results owner = .ok next) :
    Settled (owners ++ [owner]) next := by
  rw [List.filterMap_append, List.pairwise_append] at hapart
  obtain ⟨hbefore, -, hlast⟩ := hapart
  cases hkind : owner.kind with
  | aggregate layout path =>
    rw [analyzeOwner, hkind] at hrun
    cases hrun
    refine ⟨fun c x hx => ?_, fun other hother function hfunction => ?_⟩
    · simpa [List.filterMap_append, Owner.function?, hkind] using h.confined c x hx
    · rcases List.mem_append.1 hother with hother | hother
      · exact h.returns other hother function hfunction
      · obtain rfl := List.mem_singleton.1 hother
        cases hkind.symm.trans hfunction
  | function function =>
    obtain ⟨s', hruns, rfl⟩ := runs_of_analyzeOwner hkind hrun
    have hfunction := Owner.function?_eq_some_iff.2 hkind
    have hothers : ∀ f ∈ owners.filterMap Owner.function?, f.path.Apart function.path :=
      fun f hf => hlast f hf function (by simp [hfunction])
    obtain ⟨hnew, hreturns⟩ := confined_of_runs (hinside function hkind) rfl (fun c x hx => by
      obtain ⟨hsome, -, rfl | ⟨f, hf, hc, -⟩⟩ := h.confined c x hx
      · exact ⟨hsome, fun hown => hown.2 rfl⟩
      · refine ⟨hsome, fun hown => ?_⟩
        have := hown.1.symm.trans ((hothers f hf).not_startsWith hc)
        cases this) hruns
    have hgrows := grows_analyzeFunction _ _ _ _ _ hruns
    refine ⟨fun c x hx => ?_, fun other hother f hf hvoid => ?_⟩
    · rcases hnew c x hx with hold | ⟨hsome, hc, hx⟩
      · obtain ⟨hsome, hx, hc⟩ := h.confined c x hold
        refine ⟨hsome, hx, ?_⟩
        rcases hc with hheap | ⟨f, hf, hends⟩
        · exact .inl hheap
        · exact .inr ⟨f, List.mem_filterMap.2 ((List.mem_filterMap.1 hf).imp fun _ hmem =>
            ⟨List.mem_append_left _ hmem.1, hmem.2⟩), hends⟩
      · refine ⟨hsome, hx.2, hc.imp_right fun hc => ⟨function, ?_, hc.1, hx.1⟩⟩
        exact List.mem_filterMap.2 ⟨owner, by simp, hfunction⟩
    · rcases List.mem_append.1 hother with hother | hother
      · have hmem : f ∈ owners.filterMap Owner.function? :=
          List.mem_filterMap.2 ⟨other, hother, Owner.function?_eq_some_iff.2 hf⟩
        obtain ⟨returned, hlifetimes, hsafe⟩ := h.returns other hother f hf hvoid
        refine ⟨returned, ?_, hsafe.mono hgrows.graph (fun c x hx => h.inside hmem hbefore hx)
          (hothers f hmem) fun c x hx => ?_⟩
        · rw [lifetimes_insert_of_ne (hids other hother), hlifetimes]
        · exact (hnew c x hx).imp_right fun hc => hc.2.1.imp_right And.left
      · obtain rfl := List.mem_singleton.1 hother
        cases hkind.symm.trans hf
        obtain ⟨flow, hflow, hsafe⟩ := hreturns hvoid
        refine ⟨flow.bundle, lifetimes_insert_self rfl ?_, hsafe⟩
        exact State.flowAt_eq_some_iff.1 hflow

theorem Settled.run {rest : List Owner} (h : Settled owners results)
    (howners : ∀ (i : Nat) (owner : Owner), (owners ++ rest)[i]? = some owner →
      owner.id = ⟨i⟩ ∧
      ∀ function, owner.kind = .function function → owner.Inside function)
    (hapart : ((owners ++ rest).filterMap Owner.function?).Pairwise fun f g => f.path.Apart g.path)
    (hrun : rest.foldlM (analyzeOwner decls options) results = .ok next) :
    Settled (owners ++ rest) next := by
  induction rest generalizing owners results with
  | nil =>
    cases hrun
    simpa using h
  | cons owner rest ih =>
    rw [List.foldlM_cons] at hrun
    obtain ⟨middle, hmiddle, hrun⟩ := except_bind_eq_ok hrun
    rw [List.append_cons] at howners hapart ⊢
    have hlast := howners owners.length owner (by simp)
    refine ih (h.step (fun other hother hindex => ?_) hlast.2 ?_ hmiddle) howners hapart hrun
    · obtain ⟨i, hi, hget⟩ := List.mem_iff_getElem.1 hother
      have hid := (howners i other (by simp [List.getElem?_append, hi, hget])).1
      rw [hid, hlast.1] at hindex
      exact absurd hindex (Nat.ne_of_lt hi)
    · rw [List.filterMap_append] at hapart
      exact (List.pairwise_append.1 hapart).1

/-- In an accepted program whose functions have paths apart from each other, all data is stored in
storage of the same function or in the heap, and nothing holds the heap itself. What a function
returns rests on no region and has its place in the heap, in the graph of the whole program. -/
theorem returns_safe_of_analyze {items : List Item} {assembly : Program.Assembly}
    (hitems : Program.ofItems items = .ok assembly)
    (hapart : (assembly.program.owners.toList.filterMap Owner.function?).Pairwise
      fun f g => f.path.Apart g.path)
    (h : analyze assembly.program assembly.declarations options = .ok results) :
    (∀ c x, results.context.graph.Holds c x → x ≠ .heap ∧ (c = .heap ∨
      ∃ owner ∈ assembly.program.owners, ∃ function, owner.kind = .function function ∧
        c.path.startsWith function.path = true ∧ x.path.startsWith function.path = true)) ∧
    ∀ owner ∈ assembly.program.owners, ∀ function, owner.kind = .function function →
      function.returns.isVoid = false → ∃ returned,
        results.lifetimes (owner.ref function.body) = .ok returned ∧
        ∀ l ∈ returned.tracked, results.context.graph.rootsOf l = ∅ ∧
          l ∈ results.context.graph.supportOf .heap := by
  have hsettled : Settled assembly.program.owners.toList results := by
    obtain ⟨final, hfinal, h⟩ := except_bind_eq_ok h
    obtain ⟨incomplete, -, h⟩ := except_bind_eq_ok h
    obtain rfl : final = results := by
      split at h <;> cases h
      rfl
    have hempty : Settled [] { owners := ∅, context := .initial } :=
      ⟨fun c x hx => absurd hx (Digraph.not_adj_empty c x), by simp⟩
    refine hempty.run (fun i owner howner => ?_) (by simpa using hapart) hfinal
    have hplace : assembly.program.owners[i]? = some owner := by simpa using howner
    exact ⟨(Program.traced_ofItems hitems).places i owner hplace,
      fun _ => Program.inside_of_mem hitems (Array.mem_of_getElem? hplace)⟩
  refine ⟨fun c x hx => ?_, fun owner howner function hkind hvoid => ?_⟩
  · obtain ⟨-, hheap, hends⟩ := hsettled.confined c x hx
    refine ⟨hheap, hends.imp_right fun ⟨function, hfunction, hends⟩ => ?_⟩
    obtain ⟨owner, howner, hkind⟩ := List.mem_filterMap.1 hfunction
    exact ⟨owner, by simpa using howner, function, Owner.function?_eq_some_iff.1 hkind, hends⟩
  · obtain ⟨returned, hlifetimes, hsafe⟩ :=
      hsettled.returns owner (by simpa using howner) function hkind hvoid
    refine ⟨returned, hlifetimes, fun l hl => ?_⟩
    obtain ⟨-, hheap, hstored, hroots⟩ := hsafe l hl
    refine ⟨Std.ExtTreeSet.eq_empty_iff_forall_not_mem.2 hroots, ?_⟩
    exact Outlives.mem_supportOf_iff_reaches.2 ⟨hheap, .of_holds hstored⟩

/-- `make() { p = new int; p }` and `keep() { q = make(); q }`. -/
def keeping : List Item := [
  .function "make" [] (.pointer .int) (.block [.declare "p" (.newDefault .int), .var "p"]),
  .function "keep" [] (.pointer .int) (.block [.declare "q" (.call "make" []), .var "q"])]

/-- What `make` returns is still safe after `keep` was analysed. -/
theorem returns_safe_of_keeping : ∃ assembly results, Program.ofItems keeping = .ok assembly ∧
      (assembly.program.owners.toList.filterMap Owner.function?).Pairwise
        (fun f g => f.path.Apart g.path) ∧
      analyze assembly.program assembly.declarations {} = .ok results ∧
      results.context.graph.rootsOf ⟨⟨["make", "$block_0", "p"]⟩, 0, .alias,
        .localValue⟩ = ∅ ∧
      ⟨⟨["make", "$block_0", "p"]⟩, 0, .alias, .localValue⟩ ∈
        results.context.graph.supportOf .heap := by
  have h : Accepts keeping {} fun assembly results =>
      (assembly.program.owners.toList.filterMap Owner.function?).Pairwise
        (fun f g => f.path.Apart g.path) ∧
      ∃ owner ∈ assembly.program.owners, ∃ function, owner.kind = .function function ∧
        function.returns.isVoid = false ∧
        ∃ returned, results.lifetimes (owner.ref function.body) = .ok returned ∧
          returned.tracked = [⟨⟨["make", "$block_0", "p"]⟩, 0, .alias, .localValue⟩] := by
    decide +kernel
  obtain ⟨assembly, hitems, results, haccepted, hapart, owner, howner, function, hkind,
    hvoid, returned, hreturned, htracked⟩ := h
  obtain ⟨-, hsafe⟩ := returns_safe_of_analyze hitems hapart haccepted
  obtain ⟨returned', hreturned', hsafe⟩ := hsafe owner howner function hkind hvoid
  cases hreturned.symm.trans hreturned'
  exact ⟨assembly, results, hitems, hapart, haccepted, hsafe _ (by simp [htracked])⟩

end Flow
end Regions
