import Regions.Proofs.Twins

/-!
# Functions are analysed independently of each other

All functions of a program share what is known about it. What the analysis of a function comes to
does not depend on what other functions have left there, if their paths are apart from its own: it
ends with the same abort, or with the same results, in which only the numbers of versions are
higher.

* `Twins.elsewhere`: an analysis that speaks of paths apart from a given one;
* `Unrelated`: knowledge that says nothing about the paths below a given one;
* `Twins.later`: the same function, first and after other functions;
* `runFunction_of_unrelated`: the results of a function on top of such knowledge.
-/

namespace Regions

/-- What lies below one of two paths that are apart is apart from the other. -/
theorem Path.Apart.of_startsWith {p q path : Path} (h : p.Apart q) (hp : path.startsWith p = true) :
    path.Apart q := by
  refine ⟨h.not_startsWith hp, ?_⟩
  by_contra hq
  rw [Bool.not_eq_false] at hq
  have hle : q.startsWith p = true := by
    simp only [startsWith, List.isPrefixOf_iff_prefix] at hp hq ⊢
    exact hp.trans hq
  have := h.2
  simp [hle] at this

theorem Path.not_apart_of_startsWith {p q path : Path} (hp : path.startsWith p = true)
    (hq : path.startsWith q = true) : ¬ p.Apart q := by
  intro h
  have := h.not_startsWith hp
  simp [hq] at this

theorem Path.startsWith_of_mem_ancestry {p above : Path} (h : above ∈ p.ancestry) :
    p.startsWith above = true := by
  obtain ⟨n, -, rfl⟩ := List.mem_map.1 h
  exact List.isPrefixOf_iff_prefix.2 (List.take_prefix _ _)

namespace Flow
variable {results : ProgramFlow}

namespace Twins

variable {env : Env} {T : Twins env} {context context' : Context}

/-- At the start of a function there is nothing but what is known about the program. -/
theorem sim_start (hclean : Clean T.Ours context) (halike : T.Alike context context') (size : Nat) :
    T.Sim (.start context size) (.start context' size) where
  clean := hclean
  alike := halike
  frame := Frame.renumber_frameRoot.symm
  recorded := (OwnerFlow.renumber_replicate size).symm
  bindings := by
    intro path extent hextent
    rw [lookup?_start] at hextent
    cases hextent
  results := by
    intro id flow hflow
    have hnone : State.flowAt (.start context size) id = none := flowAt_start context size id
    rw [State.flowAt_eq_some_iff.2 hflow] at hnone
    cases hnone

theorem clean_initial {Ours : Path → Prop} : Clean Ours .initial where
  graph := fun c x hx => absurd hx (Digraph.not_adj_empty c x)
  exposed := fun path hpath => absurd hpath Std.ExtTreeSet.not_mem_empty
  captures :=
    fun holder captured hcaptured => absurd hcaptured (Digraph.not_adj_empty holder captured)
  rebound := by simp [Context.initial]
  heapWrites := by simp [Context.initial]
  nextVersion := Nat.one_pos

end Twins

/-! ## What other functions leave -/

/-- An analysis that only speaks of paths apart from a given one, next to itself. -/
def Twins.elsewhere (env : Env) (path : Path) (h : env.scope.Apart path) : Twins env where
  ahead := 0
  Ours := fun other => other.Apart path
  rebound := []
  heapWrites := []
  ours := fun _ hother => h.of_startsWith hother

/-- All that is known is about paths apart from the given one. -/
def Unrelated (path : Path) (context : Context) : Prop :=
  Twins.Clean (fun other => other.Apart path) context

variable {decls : Declarations} {options : Options} {owner : Owner} {function : Function}
  {context : Context} {path : Path}

theorem namesInside_ofFunction (hinside : owner.Inside function) :
    Twins.NamesInside (.ofFunction decls options owner function) := by
  intro id node path hnode hnames
  refine hinside.nodes id node path ?_ hnames
  unfold Env.node Owner.node at hnode
  split at hnode
  · cases hnode
    assumption
  · cases hnode

/-- A function whose path is apart from the given one leaves nothing about the paths below that. -/
theorem Unrelated.step (h : Unrelated path context) (hinside : owner.Inside function)
    (hapart : function.path.Apart path) {s' : State}
    (hrun : RunsOwner decls options owner function context s') : Unrelated path s'.context := by
  let T := Twins.elsewhere (.ofFunction decls options owner function) path hapart
  have hclean : Twins.Clean T.Ours context := h
  -- Next to itself, the analysis has no versions ahead.
  have halike : T.Alike context context := by
    refine ⟨fun c _ y => ?_, fun _ _ => rfl, fun _ _ _ => Iff.rfl, ?_, ?_, rfl⟩
    · simp [T, Twins.elsewhere]
    · simp [T, Twins.elsewhere]
    · simp [T, Twins.elsewhere]
  have hagree : T.Agree (analyzeFunction _ function) _ fun _ _ => True :=
    Twins.analyzeFunction (namesInside_ofFunction hinside) hinside.parameters
  have hends := hagree _ _ (Twins.sim_start hclean halike owner.nodes.size)
  rw [show analyzeFunction _ function (.start context owner.nodes.size) = .ok () s' from hrun]
    at hends
  exact hends.2.clean

theorem Unrelated.run {owners : List Owner} {final : ProgramFlow}
    (h : Unrelated path results.context)
    (howners : ∀ owner ∈ owners, ∀ function, owner.kind = .function function →
      owner.Inside function ∧ function.path.Apart path)
    (hrun : owners.foldlM (analyzeOwner decls options) results = .ok final) :
    Unrelated path final.context := by
  refine context_of_foldlM (P := Unrelated path)
    (fun owner howner function hkind context s' hcontext hruns => ?_) h hrun
  obtain ⟨hinside, hapart⟩ := howners owner howner function hkind
  exact hcontext.step hinside hapart hruns

/-! ## A function after others -/

/-- The analysis of a function that comes first, and of the same function on top of some
knowledge. -/
def Twins.later (env : Env) (context : Context) : Twins env where
  ahead := context.nextVersion - 1
  Ours := fun path => path.startsWith env.scope = true
  rebound := context.rebound
  heapWrites := context.heapWrites
  ours := fun _ h => h

theorem Unrelated.alike {env : Env} (hclean : Unrelated env.scope context) :
    (Twins.later env context).Alike .initial context := by
  refine ⟨fun c hc y => ⟨fun hy => ?_, fun ⟨x, hx, _⟩ => ?_⟩, fun path hpath => ?_,
    fun holder hholder captured => ⟨fun hcaptured => ?_, fun hcaptured => ?_⟩, ?_, ?_, ?_⟩
  · -- A container of the function is not one of those that were known before.
    obtain ⟨hsome, hcontainer, -⟩ := hclean.graph _ y hy
    rw [Lifetime.isNone_renumber] at hsome
    obtain ⟨hours, hheap, -⟩ := hc.resolve_left (by simp [hsome])
    rcases hcontainer with hknown | hcontainer
    · have hapart := hknown.ours (by simpa using hsome)
      rw [Lifetime.path_renumber] at hapart
      exact absurd hapart (Path.not_apart_of_startsWith (Path.startsWith_self _) hours)
    · rw [← Lifetime.renumber_heap, Lifetime.renumber_inj] at hcontainer
      exact absurd hcontainer hheap
  · exact absurd hx (Digraph.not_adj_empty c x)
  · have hfalse : context.isExposed path = false := by
      rw [Context.isExposed, List.any_eq_false]
      intro above habove hexposed
      have hapart := hclean.exposed above (Std.ExtTreeSet.contains_iff_mem.1 hexposed)
      exact Path.not_apart_of_startsWith (Path.startsWith_of_mem_ancestry habove) hpath hapart
    rw [hfalse, Context.isExposed, eq_comm, List.any_eq_false]
    intro above _
    simp [Context.initial]
  · have hapart := (hclean.captures _ _ hcaptured).1
    exact absurd hapart (Path.not_apart_of_startsWith (Path.startsWith_self _) hholder)
  · exact absurd hcaptured (Digraph.not_adj_empty holder captured)
  · simp [Twins.later, Context.initial]
  · simp [Twins.later, Context.initial]
  · have := hclean.nextVersion
    simp only [Twins.later, Context.initial]
    omega

/-- On top of knowledge about other paths, the analysis of a function ends with the same abort as
without that, or with the same results but for the numbers of versions. -/
theorem runFunction_of_unrelated (h : Unrelated function.path context)
    (hinside : owner.Inside function) :
    (runFunction decls options context owner function).map Prod.snd =
      (runFunction decls options .initial owner function).map fun known =>
        OwnerFlow.renumber (context.nextVersion - 1) known.2 := by
  have hagree : (Twins.later (.ofFunction decls options owner function) context).Agree
      (analyzeFunction _ function) _ fun _ _ => True :=
    Twins.analyzeFunction (namesInside_ofFunction hinside) hinside.parameters
  have halike : (Twins.later (.ofFunction decls options owner function) context).Alike
      .initial context :=
    Unrelated.alike h
  have hends := hagree _ _ (Twins.sim_start Twins.clean_initial halike owner.nodes.size)
  -- The two ways in which a run of the function can end.
  have hok : ∀ {context : Context} {u : Unit} {s : State},
      analyzeFunction (.ofFunction decls options owner function) function
      (.start context owner.nodes.size) =
        .ok u s → runFunction decls options context owner function = .ok
            (s.context, s.recorded) := by
    intro context u s h
    simp only [runFunction]
    split
    · rename_i hrun
      cases h.symm.trans hrun
      rfl
    · rename_i hrun
      cases h.symm.trans hrun
  have herror : ∀ {context : Context} {abort : Abort} {s : State},
      analyzeFunction (.ofFunction decls options owner function) function
      (.start context owner.nodes.size) =
        .error abort s → runFunction decls options context owner function = .error abort := by
    intro context abort s h
    simp only [runFunction]
    split
    · rename_i hrun
      cases h.symm.trans hrun
    · rename_i hrun
      cases h.symm.trans hrun
      rfl
  revert hends
  cases hfirst : analyzeFunction (.ofFunction decls options owner function) function
      (.start .initial owner.nodes.size) with
  | ok _ s =>
    cases hlater : analyzeFunction (.ofFunction decls options owner function) function
        (.start context owner.nodes.size) with
    | ok _ t =>
      intro hends
      rw [hok hfirst, hok hlater]
      exact congrArg Except.ok hends.2.recorded
    | error abort _ => exact False.elim
  | error abort s =>
    cases hlater : analyzeFunction (.ofFunction decls options owner function) function
        (.start context owner.nodes.size) with
    | ok _ t => exact False.elim
    | error abort' t =>
      intro hends
      rw [herror hfirst, herror hlater]
      exact congrArg Except.error hends.symm

/-! ## Programs -/

/-- Why an analysis has come to an end. -/
def rejection? {α : Type} : Except Abort α → Option Abort
  | .ok _ => none
  | .error abort => some abort

theorem rejection?_map {α β : Type} (f : α → β) (result : Except Abort α) :
    rejection? (result.map f) = rejection? result := by
  cases result <;> rfl

theorem rejection?_analyzeOwner (hkind : owner.kind = .function function) :
    rejection? (analyzeOwner decls options results owner) =
      rejection? (runFunction decls options results.context owner function) := by
  rw [analyzeOwner, hkind]
  dsimp only
  cases runFunction decls options results.context owner function <;> rfl

theorem rejection?_of_unrelated (h : ∀ function, owner.kind = .function function →
      Unrelated function.path results.context ∧ owner.Inside function) :
    rejection? (analyzeOwner decls options results owner) =
      rejection? (analyzeOwner decls options { owners := ∅, context := .initial } owner) := by
  cases hkind : owner.kind with
  | aggregate layout path =>
    rw [analyzeOwner, analyzeOwner, hkind]
    rfl
  | function function =>
    obtain ⟨hunrelated, hinside⟩ := h function hkind
    rw [rejection?_analyzeOwner hkind, rejection?_analyzeOwner hkind]
    calc
      rejection? (runFunction decls options results.context owner function)
          = rejection? ((runFunction decls options results.context owner function).map Prod.snd) :=
            (rejection?_map _ _).symm
      _ = rejection? ((runFunction decls options .initial owner function).map fun known =>
            OwnerFlow.renumber (results.context.nextVersion - 1) known.2) := by
            rw [runFunction_of_unrelated hunrelated hinside]
      _ = rejection? (runFunction decls options .initial owner function) := rejection?_map _ _

/-- An analysis of functions whose paths are apart from each other ends with the first function that
is rejected on its own. -/
theorem rejection?_foldlM {before rest : List Owner}
    (hinside : ∀ owner ∈ before ++ rest, ∀ function, owner.kind = .function function →
      owner.Inside function)
    (hapart : ((before ++ rest).filterMap Owner.function?).Pairwise fun f g => f.path.Apart g.path)
    (hbefore : before.foldlM (analyzeOwner decls options) { owners := ∅, context := .initial } =
      .ok results) :
    rejection? (rest.foldlM (analyzeOwner decls options) results) = rest.findSome? fun owner =>
      rejection? (analyzeOwner decls options { owners := ∅, context := .initial } owner) := by
  induction rest generalizing before results with
  | nil => rfl
  | cons owner rest ih =>
    have hlast : rejection? (analyzeOwner decls options results owner) =
        rejection? (analyzeOwner decls options { owners := ∅, context := .initial } owner) := by
      refine rejection?_of_unrelated fun function hkind =>
        ⟨?_, hinside owner (by simp) function hkind⟩
      refine Unrelated.run ?_ (fun other hother f hf =>
        ⟨hinside other (by simp [hother]) f hf, ?_⟩) hbefore
      · exact Twins.clean_initial
      rw [List.filterMap_append, List.pairwise_append] at hapart
      refine hapart.2.2 f ?_ function ?_
      · exact List.mem_filterMap.2 ⟨other, hother, Owner.function?_eq_some_iff.2 hf⟩
      · exact List.mem_filterMap.2 ⟨owner, by simp, Owner.function?_eq_some_iff.2 hkind⟩
    rw [List.foldlM_cons, List.findSome?_cons, ← hlast]
    cases hnext : analyzeOwner decls options results owner with
    | error abort => rfl
    | ok next =>
      rw [List.append_cons] at hinside hapart
      refine ih hinside hapart ?_
      rw [List.foldlM_append, hbefore]
      simp [bind, Except.bind, hnext, pure, Except.pure]

/-- Owners before and after another one have other identifiers. -/
theorem others_of_ofItems {items : List Item} {assembly : Program.Assembly}
    (hitems : Program.ofItems items = .ok assembly) {before after : List Owner}
    (howners : assembly.program.owners.toList = before ++ owner :: after) {other : Owner}
    (hother : other ∈ before ++ after) :
    other ∈ assembly.program.owners ∧ other.id ≠ owner.id := by
  have hnodup := Program.nodup_ids hitems
  rw [howners, List.map_append, List.map_cons, List.nodup_middle, List.nodup_cons,
    ← List.map_append] at hnodup
  refine ⟨?_, fun heq => hnodup.1 (List.mem_map.2 ⟨other, hother, by rw [heq]⟩)⟩
  rw [← Array.mem_toList_iff, howners]
  exact List.Sublist.mem hother ((List.sublist_cons_self owner after).append_left before)

/-- When the analysis comes to a function, it knows nothing about its paths. -/
theorem Precedes.unrelated {items : List Item} {assembly : Program.Assembly}
    (hitems : Program.ofItems items = .ok assembly)
    (hprecedes : Precedes assembly.program assembly.declarations options context owner)
    (hapart : ∀ other ∈ assembly.program.owners, other.id ≠ owner.id →
      ∀ f, other.kind = .function f → f.path.Apart path) : Unrelated path context := by
  obtain ⟨before, after, results, howners, hrun, rfl⟩ := hprecedes
  have hinitial : Unrelated path .initial := Twins.clean_initial
  refine Unrelated.run hinitial (fun other hother f hf => ?_) hrun
  obtain ⟨hmem, hne⟩ := others_of_ofItems hitems howners (List.mem_append_left after hother)
  exact ⟨Program.inside_of_mem hitems hmem hf, hapart other hmem hne f hf⟩

/-- In a program, let the path of a function be apart from the path of every other function. After
any other functions were analysed with success, the analysis of this one ends with the same abort as
when it comes first, or with the same results up to the number of versions given out before. Whether
an order of functions with paths apart is rejected, and why, is therefore decided by the first one
in that order that is rejected on its own. -/
theorem analysis_modular {items : List Item} {assembly : Program.Assembly} {options : Options}
    (hitems : Program.ofItems items = .ok assembly) :
    (∀ owner ∈ assembly.program.owners, ∀ function, owner.kind = .function function →
      (∀ other ∈ assembly.program.owners, other.id ≠ owner.id →
        ∀ f, other.kind = .function f → f.path.Apart function.path) →
      ∀ (before : List Owner) (results : ProgramFlow),
        (∀ other ∈ before, other ∈ assembly.program.owners ∧ other.id ≠ owner.id) →
        before.foldlM (analyzeOwner assembly.declarations options)
          { owners := ∅, context := .initial } = .ok results →
        (runFunction assembly.declarations options results.context owner function).map Prod.snd =
          (runFunction assembly.declarations options .initial owner function).map fun known =>
            OwnerFlow.renumber (results.context.nextVersion - 1) known.2) ∧
    ∀ order : List Owner, (∀ owner ∈ order, owner ∈ assembly.program.owners) →
      (order.filterMap Owner.function?).Pairwise (fun f g => f.path.Apart g.path) →
      rejection? (order.foldlM (analyzeOwner assembly.declarations options)
        { owners := ∅, context := .initial }) =
      order.findSome? fun owner => rejection? (analyzeOwner assembly.declarations options
            { owners := ∅, context := .initial } owner) := by
  have hinside : ∀ owner ∈ assembly.program.owners, ∀ function,
    owner.kind = .function function →
      owner.Inside function := fun owner howner function => Program.inside_of_mem hitems howner
  refine ⟨fun owner howner function hkind hapart before results hothers hbefore => ?_,
    fun order horder hapart => ?_⟩
  · refine runFunction_of_unrelated ?_ (hinside owner howner function hkind)
    refine Unrelated.run ?_ (fun other hother f hf => ?_) hbefore
    · exact Twins.clean_initial
    obtain ⟨hmem, hne⟩ := hothers other hother
    exact ⟨hinside other hmem f hf, hapart other hmem hne f hf⟩
  · have hall : ∀ owner ∈ [] ++ order, ∀ function, owner.kind = .function function →
        owner.Inside function := fun owner howner => hinside owner (horder owner howner)
    exact rejection?_foldlM hall hapart rfl

/-- `early() { x = new int; x = new int; }` and `late(int* p) { p = new int; p }`. -/
def renewing : List Item := [
  .function "early" [] .void
    (.block [.declare "x" (.newDefault .int), .assign (.var "x") (.newDefault .int)]),
  .function "late" [⟨"p", .pointer .int, true⟩] (.pointer .int)
    (.block [.assign (.var "p") (.newDefault .int), .var "p"])]

/-- The version of `p` that `late` returns. -/
def returnedVersion? (function : Function) (flow : OwnerFlow) : Option Nat := do
  let flow? ← flow.get? function.body
  let extent ← (← flow?).bundle.whole?
  return extent.value.version

/-- After `early`, the results of `late` are those of `late` alone with every version one higher;
and `late` may just as well come first. -/
theorem analysis_modular_renewing : ∃ assembly early late function results flow flow',
    Program.ofItems renewing = .ok assembly ∧ assembly.program.owners.toList = [early, late] ∧
    late.kind = .function function ∧
    analyzeOwner assembly.declarations {}
    { owners := ∅, context := .initial } early = .ok results ∧
    runFunction assembly.declarations {} .initial late function = .ok flow ∧
    returnedVersion? function flow.2 = some 1 ∧
    runFunction assembly.declarations {} results.context late function = .ok flow' ∧
    flow'.2 = OwnerFlow.renumber 1 flow.2 ∧
    rejection? ([late, early].foldlM (analyzeOwner assembly.declarations {})
      { owners := ∅, context := .initial }) = none := by
  have h : ∃ assembly, Program.ofItems renewing = .ok assembly ∧
      ∃ early ∈ assembly.program.owners, ∃ late ∈ assembly.program.owners,
        assembly.program.owners.toList = [early, late] ∧ early.id ≠ late.id ∧
      ∃ f, early.kind = .function f ∧ ∃ g, late.kind = .function g ∧ f.path.Apart g.path ∧
      ∃ results, analyzeOwner assembly.declarations {} { owners := ∅, context := .initial }
      early = .ok results ∧ results.context.nextVersion = 2 ∧
      ∃ flow, runFunction assembly.declarations {} .initial late g = .ok flow ∧
        returnedVersion? g flow.2 = some 1 := by
    decide +kernel
  obtain ⟨assembly, hitems, early, -, late, hlate, howners, hne, f, hf, g, hg, hapart, results,
    hresults, hversion, flow, hflow, hreturned⟩ := h
  have hmem : ∀ owner, owner ∈ assembly.program.owners ↔ owner = early ∨ owner = late := by
    intro owner
    rw [← Array.mem_toList_iff, howners]
    simp
  obtain ⟨hafter, horder⟩ := @analysis_modular renewing assembly {} hitems
  have hothers : ∀ other ∈ assembly.program.owners, other.id ≠ late.id →
    ∀ f', other.kind = .function f' → f'.path.Apart g.path := by
    intro other hother hother' f' hf'
    rcases (hmem other).1 hother with rfl | rfl
    · cases hf.symm.trans hf'
      exact hapart
    · exact absurd rfl hother'
  have hlater :=
    hafter late hlate g hg hothers [early] results (by simpa [hmem] using hne) (by simp [hresults])
  rw [hflow, hversion] at hlater
  have halone : rejection? (analyzeOwner assembly.declarations {}
      { owners := ∅, context := .initial } late) = none := by
    rw [rejection?_analyzeOwner hg, hflow]
    rfl
  cases hflow' : runFunction assembly.declarations {} results.context late g with
  | error abort => simp [hflow', Except.map] at hlater
  | ok flow' =>
    refine ⟨assembly, early, late, g, results, flow, flow', hitems, howners, hg, hresults,
      hflow, hreturned, hflow', by simpa [hflow', Except.map] using hlater, ?_⟩
    rw [horder [late, early] (by simp [hmem]) (by simp [Owner.function?_eq_some_iff.2 hf,
      Owner.function?_eq_some_iff.2 hg, hapart.symm])]
    simp only [List.findSome?_cons, halone, hresults]
    rfl

end Flow
end Regions
