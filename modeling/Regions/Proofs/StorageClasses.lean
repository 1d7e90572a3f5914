import Regions.Proofs.Completeness
import Regions.Proofs.Trees

/-!
# Where the data of a value is stored

The storage of a value is read off its whole: heap memory if the whole rests on no region that ends.
A member may rest on more than the whole does, because an assignment to the member of a variable
does not touch the whole, and a value that is joined from two branches, or that is written through a
reference, has a lifetime of its own for each member.

For all other values the answer can be relied on.

* `Bundle.Solid`, `Bundle.Covered`: bundles whose whole tells about the members;
* `Firm`, `Relied`: nodes that have such bundles;
* `Firm.solid`, `Relied.covered`: they do have them, in every state that the analysis comes by;
* `rootsOf_eq_empty_of_heap`: in heap memory, no member rests on a region that ends.
-/

namespace Regions

open Std

variable {bundle : Bundle}

/-! ## Bundles -/

/-- The extent is not taken for one of heap memory: it refers to nothing, sits in a slot, or is a
region that ends. -/
def Extent.Sure (extent : Extent) : Prop :=
  extent.value.isNone = true ∨ extent.slot.isSlot = true ∨
    extent.value.isRoot = true ∧ extent.value.isHeap = false

theorem Extent.sure_untracked : Extent.untracked.Sure := .inl rfl

namespace Bundle

/-- At every member, the extent is sure, or all of the member has the same data. -/
def Solid (bundle : Bundle) : Prop :=
  ∀ (path : Path) (extent : Extent), bundle[path]? = some extent → extent.Sure ∨
    ∀ (m : Path) (other : Extent), bundle[path ++ m]? = some other →
      other.value.isNone = true ∨ other.value = extent.value

/-- The whole is sure, or holds the data of all members. -/
def Covered (graph : Outlives) (bundle : Bundle) : Prop :=
  ∀ whole, bundle.whole? = some whole → whole.Sure ∨
    ∀ (path : Path) (other : Extent), bundle[path]? = some other →
      other.value.isNone = true ∨ graph.Reaches whole.value other.value

theorem Solid.scopedTo (h : bundle.Solid) (base : Path) : (bundle.scopedTo base).Solid := by
  intro path extent hextent
  rw [getElem?_scopedTo] at hextent
  refine (h _ _ hextent).imp_right fun hall m other hother => ?_
  apply hall m other
  rwa [getElem?_scopedTo, ← Path.append_assoc] at hother

theorem Solid.covered (h : bundle.Solid) (graph : Outlives) : bundle.Covered graph := by
  intro whole hwhole
  refine (h _ _ hwhole).imp_right fun hall path other hother => ?_
  rcases hall path other (by rwa [Path.whole_append]) with hnone | heq
  · exact .inl hnone
  · rw [heq]
    exact .inr (.refl _ _)

theorem Covered.mono {graph graph' : Outlives} (h : bundle.Covered graph)
    (hle : graph.Below graph') : bundle.Covered graph' :=
  fun whole hwhole => (h whole hwhole).imp_right fun hall path other hother =>
    (hall path other hother).imp_right fun hreaches => hreaches.mono hle

/-- What is taken for heap memory does not rest on a region that ends, if the whole tells about the
members. -/
theorem Covered.rootsOf_eq_empty {graph : Outlives} (h : bundle.Covered graph)
    (hheap : ProgramFlow.storageOf graph bundle = .heap) {l : Lifetime}
    (hl : l ∈ bundle.tracked) : graph.rootsOf l = ∅ := by
  obtain ⟨path, extent, hextent, rfl, hsome⟩ := mem_tracked_iff.1 hl
  unfold ProgramFlow.storageOf at hheap
  split at hheap
  · cases hheap
  · rename_i whole hwhole
    -- Only the third of the four answers is heap memory.
    split at hheap
    · cases hheap
    · rename_i hslot
      split at hheap
      · cases hheap
      · rename_i hvalue
        split at hheap
        · rename_i hempty
          have hroots : ∀ root, root ∉ graph.rootsOf whole.value :=
            ExtTreeSet.eq_empty_iff_forall_not_mem.1 (ExtTreeSet.isEmpty_iff.1 hempty)
          have hself : ¬ whole.Sure := by
            rintro (hnone | hinSlot | ⟨hroot, hnotHeap⟩)
            · exact hvalue hnone
            · exact hslot hinSlot
            · apply hroots whole.value
              exact Outlives.mem_rootsOf_iff.2
                ⟨.refl _ _, hroot, hnotHeap, (Bool.not_eq_true _).mp hvalue⟩
          have hreaches :=
            ((h whole hwhole).resolve_left hself path extent hextent).resolve_left (by simp [hsome])
          refine ExtTreeSet.eq_empty_iff_forall_not_mem.2 fun root hroot => hroots root ?_
          obtain ⟨hto, hkind⟩ := Outlives.mem_rootsOf_iff.1 hroot
          exact Outlives.mem_rootsOf_iff.2 ⟨hreaches.trans hto, hkind⟩
        · cases hheap

end Bundle

namespace Flow

variable {X : Setting} {p p' : Progress X} {s s' : State} {id : NodeId} {node : Node}

/-! ## Nodes -/

/-- Nodes whose members are told by what is around them: variables, calls, what is read through a
reference, and parts of these. -/
inductive Firm (X : Setting) : NodeId → Prop
  | var {id : NodeId} {node : Node} {path : Path} (hnode : X.env.node id = .ok node)
      (hexpr : node.expr = .var path) : Firm X id
  | call {id : NodeId} {node : Node} {function : Path} {arguments : List NodeId}
      (hnode : X.env.node id = .ok node) (hexpr : node.expr = .call function arguments) : Firm X id
  | dereference {id target : NodeId} {node : Node} (hnode : X.env.node id = .ok node)
      (hexpr : node.expr = .dereference target) (hvalue : ¬ X.visits .place id) : Firm X id
  | index {id target subscript : NodeId} {node : Node} (hnode : X.env.node id = .ok node)
      (hexpr : node.expr = .index target subscript) (hvalue : ¬ X.visits .place id) : Firm X id
  | member {id target : NodeId} {node : Node} {name : String} (hnode : X.env.node id = .ok node)
      (hexpr : node.expr = .memberAccess target name) (htarget : Firm X target) : Firm X id
  | block {id last : NodeId} {node : Node} {statements : List NodeId}
      (hnode : X.env.node id = .ok node)
      (hexpr : node.expr = .block statements) (hlast : statements.getLast? = some last)
      (hfirm : Firm X last) : Firm X id

/-- Nodes whose whole tells about the members: also struct literals, which hold the data of their
fields. -/
inductive Relied (X : Setting) : NodeId → Prop
  | firm {id : NodeId} (h : Firm X id) : Relied X id
  | literal {id : NodeId} {node : Node} {fields : List (String × NodeId)}
      (hnode : X.env.node id = .ok node) (hexpr : node.expr = .structLiteral fields) : Relied X id
  | block {id last : NodeId} {node : Node} {statements : List NodeId}
      (hnode : X.env.node id = .ok node)
      (hexpr : node.expr = .block statements) (hlast : statements.getLast? = some last)
      (hrelied : Relied X last) : Relied X id

/-! ## Results -/

section Results

variable {env : Env} {ty : Ty} {path : Path} {extent : Extent}

theorem sure_of_lookup? (hs : Coherent s) (h : s.frame.lookup? path = some extent) :
    extent.Sure := by
  refine .inr (.inl ?_)
  rw [(hs.bindings.lookup h).slot]
  rfl

theorem sure_readAt (kind : String) (field : Field) :
    (Extent.ofValue (env.readAt kind id field)).Sure :=
  .inr (.inr ⟨rfl, rfl⟩)

theorem Result.solid_var {position : Position} (hs : Coherent s)
    (h : Result env s id ty position (.var path) bundle) : bundle.Solid := by
  intro m extent hm
  refine .inl ?_
  cases h.sourced hm with
  | untracked => exact Extent.sure_untracked
  | read _ _ _ hlookup | named _ _ hlookup => exact sure_of_lookup? hs hlookup
  | resolved hpointer | fetched hpointer | behind hpointer => cases hpointer

theorem Result.solid_read {expr : Expr} {kind : String} {pointer : Extent} (hs : Coherent s)
    (hpointer : Pointer s expr kind pointer) (h : Result env s id ty .value expr bundle) :
    bundle.Solid := by
  intro m extent hm
  refine .inl ?_
  have hsourced := h.sourced hm
  cases hsourced with
  | untracked => exact Extent.sure_untracked
  | resolved _ _ _ _ _ hlookup => exact sure_of_lookup? hs hlookup
  | fetched => exact sure_readAt _ _
  | _ => cases hpointer

/-- All that a call returns is one region. -/
theorem Result.solid_call {function : Path} {arguments : List NodeId}
    (h : Result env s id ty .value (.call function arguments) bundle) : bundle.Solid := by
  have hregion : ∀ (m : Path) (extent : Extent), bundle[m]? = some extent →
      extent.value.isNone = true ∨ extent.value = .root (env.tempPath "call" id) .heap := by
    intro m extent hm
    cases h.sourced hm with
    | untracked => exact .inl rfl
    | called => exact .inr rfl
    | resolved hpointer | fetched hpointer => cases hpointer
  intro m extent hm
  rcases hregion m extent hm with hnone | heq
  · exact .inl (.inl hnone)
  · refine .inr fun n other hother => ?_
    rw [heq]
    exact hregion _ other hother

/-- A struct literal holds the data of its members. -/
theorem Result.covered_literal {fields : List (String × NodeId)}
    (h : Result env s id ty .value (.structLiteral fields) bundle) :
    bundle.Covered s.context.graph := by
  intro whole hwhole
  -- The path of the whole belongs to no field, so that the whole is the literal itself.
  have hliteral : whole.value.isNone = true ∨ whole.value = env.literalAt id := by
    rcases LiteralBundle.exists_of_getElem? h hwhole with ⟨-, rfl⟩ |
      ⟨-, ⟨members, field, -, -, -, rfl⟩ | ⟨field, -, flow, n, found, -, -, hpath, -⟩⟩
    · exact .inl rfl
    · unfold defaultExtent
      split
      · exact .inr rfl
      · exact .inl rfl
    · have hsegments := congrArg Path.segments hpath
      simp [Path.whole, Path.single, Path.segments_append] at hsegments
  rcases hliteral with hnone | heq
  · exact .inl (.inl hnone)
  refine .inr fun path other hother => ?_
  rw [heq]
  rcases LiteralBundle.exists_of_getElem? h hother with ⟨-, rfl⟩ |
    ⟨htracked, ⟨members, field, -, -, -, rfl⟩
      | ⟨field, hfield, flow, n, found, hflow, hfound, -, rfl⟩⟩
  · exact .inl rfl
  · unfold defaultExtent
    split
    · exact .inr (.refl _ _)
    · exact .inl rfl
  · rcases h with ⟨huntracked, -⟩ | ⟨-, _, _, -, -, -, hholds⟩
    · cases huntracked.symm.trans htracked
    · by_cases hnone : found.value.isNone = true
      · exact .inl hnone
      · refine .inr (hholds field hfield flow hflow found.value ?_).reaches
        exact Bundle.mem_tracked_iff.2 ⟨n, found, hfound, rfl, (Bool.not_eq_true _).mp hnone⟩

end Results

/-! ## States -/

theorem Attested.exists_result {flow : NodeFlow} {expr : Expr} (h : Attested X s id flow)
    (hnode : X.env.node id = .ok node) (hexpr : node.expr = expr) :
    ∃ position s₀, X.visits position id ∧ Coherent s₀ ∧ Grows s₀ s ∧
      Result X.env s₀ id node.ty position expr flow.bundle := by
  obtain ⟨task, s₀, rfl, hcoherent, hgrows, hresult, -⟩ := h
  cases hnode.symm.trans task.found
  subst hexpr
  exact ⟨task.position, s₀, task.visited, hcoherent, hgrows, hresult⟩

/-- The bundle of a block is that of its last statement, if it is not empty. -/
theorem Result.block {statements : List NodeId} {last : NodeId} {ty : Ty} {env : Env}
    {position : Position} {P : Bundle → Prop}
    (hlast : statements.getLast? = some last) (hempty : P ∅)
    (h : ∀ flow, s.flowAt last = some flow → P flow.bundle)
    (hresult : Result env s id ty position (.block statements) bundle) : P bundle := by
  cases position with
  | place => exact hresult.elim
  | value =>
    rcases hresult with ⟨-, rfl⟩ | ⟨-, found, flow, hfound, hflow, rfl⟩
    · exact hempty
    · rw [hlast] at hfound
      cases hfound
      exact h flow hflow

section States

variable (hs : ∀ id flow, s.flowAt id = some flow → Attested X s id flow)

include hs

/-- What a firm node has as its result is solid. -/
theorem Firm.solid (h : Firm X id) : ∀ flow, s.flowAt id = some flow → flow.bundle.Solid := by
  -- Which operand the result is taken from is read off the expression.
  induction h with
  | var hnode hexpr =>
    intro flow hflow
    obtain ⟨position, s₀, -, hcoherent, -, hresult⟩ :=
      (hs _ flow hflow).exists_result hnode hexpr
    exact hresult.solid_var hcoherent
  | call hnode hexpr =>
    intro flow hflow
    obtain ⟨position, s₀, -, -, -, hresult⟩ := (hs _ flow hflow).exists_result hnode hexpr
    cases position with
    | value => exact hresult.solid_call
    | place => exact hresult.elim
  | dereference hnode hexpr hvalue | index hnode hexpr hvalue =>
    intro flow hflow
    obtain ⟨position, s₀, hvisits, hcoherent, -, hresult⟩ :=
      (hs _ flow hflow).exists_result hnode hexpr
    cases position with
    | value =>
      obtain ⟨kind, pointer, fields, hpointer, -⟩ := show Result _ _ _ _ .value _ _ from hresult
      exact hresult.solid_read hcoherent hpointer
    | place => exact absurd hvisits hvalue
  | member hnode hexpr _ ih =>
    intro flow hflow
    obtain ⟨position, s₀, -, -, hgrows, hresult⟩ :=
      (hs _ flow hflow).exists_result hnode hexpr
    cases position <;>
    · obtain ⟨whole, members, hwhole, hbundle, -⟩ := hresult
      rw [hbundle]
      exact (ih whole (hgrows.recorded _ _ hwhole)).scopedTo _
  | block hnode hexpr hlast _ ih =>
    intro flow hflow
    obtain ⟨position, s₀, -, -, hgrows, hresult⟩ :=
      (hs _ flow hflow).exists_result hnode hexpr
    exact hresult.block hlast (by simp [Bundle.Solid]) fun flow hflow =>
      ih flow (hgrows.recorded _ _ hflow)

/-- What a node has as its result that can be relied on is covered. -/
theorem Relied.covered (h : Relied X id) :
    ∀ flow, s.flowAt id = some flow → flow.bundle.Covered s.context.graph := by
  induction h with
  | firm hfirm => exact fun flow hflow => (hfirm.solid hs flow hflow).covered _
  | literal hnode hexpr =>
    intro flow hflow
    obtain ⟨position, s₀, -, -, hgrows, hresult⟩ :=
      (hs _ flow hflow).exists_result hnode hexpr
    cases position with
    | value => exact hresult.covered_literal.mono hgrows.graph
    | place => exact hresult.elim
  | block hnode hexpr hlast _ ih =>
    intro flow hflow
    obtain ⟨position, s₀, -, -, hgrows, hresult⟩ :=
      (hs _ flow hflow).exists_result hnode hexpr
    refine hresult.block hlast ?_ fun flow hflow => ih flow (hgrows.recorded _ _ hflow)
    simp [Bundle.Covered, Bundle.whole?]

end States

/-! ## Programs -/

section Programs

variable {program : Program} {decls : Declarations} {options : Options} {results : ProgramFlow}
  {owner : Owner} {function : Function}

/-- The results of a function are those of its own analysis, and its storings are among those of the
program. -/
theorem exists_runs_below_of_analyze (h : analyze program decls options = .ok results)
    (hids : (program.owners.toList.map fun owner => owner.id.index).Nodup)
    (howner : owner ∈ program.owners) (hkind : owner.kind = .function function) :
    ∃ context s', RunsOwner decls options owner function context s' ∧
      results.owners[owner.id.index]? = some s'.recorded ∧
      s'.context.graph.Below results.context.graph := by
  have hrun := foldlM_of_analyze h
  obtain ⟨before, after, hsplit⟩ := List.append_of_mem (Array.mem_toList_iff.2 howner)
  rw [hsplit] at hrun
  obtain ⟨known, s', -, hruns, hafter⟩ := exists_runs_of_foldlM hkind hrun
  rw [hsplit, List.map_append, List.map_cons, List.nodup_append, List.nodup_cons] at hids
  refine ⟨known.context, s', hruns, ?_, ?_⟩
  · rw [getElem?_of_foldlM hids.2.1.1 hafter, ExtTreeMap.getElem?_insert_self]
  · refine context_of_foldlM (P := fun context => s'.context.graph.Below context.graph) ?_
      (.refl _) hafter
    intro _ _ function _ context s'' hbelow hruns
    exact hbelow.trans (grows_analyzeFunction _ _ _ _ _ hruns).graph

/-- The check at the end passes for all nodes of a body. -/
theorem isComplete_of_analyze (h : analyze program decls options = .ok results)
    (howner : owner ∈ program.owners) :
    ∃ ids, owner.walk = .ok ids ∧ ∀ id ∈ ids, ∀ node,
      owner.node id = .ok node → results.isComplete decls (owner.ref id) node.ty = .ok true := by
  have hincomplete : results.incomplete program decls = .ok [] := by
    obtain ⟨final, hfinal, hcheck⟩ := except_bind_eq_ok h
    cases hfinal.symm.trans (foldlM_of_analyze h)
    obtain ⟨refs, hrefs, hcheck⟩ := except_bind_eq_ok hcheck
    cases hresult : results.incomplete program decls with
    | error fault => simp [orFault, hresult, Except.mapError] at hrefs
    | ok found =>
      simp only [orFault, hresult, Except.mapError, Except.ok.injEq] at hrefs
      subst hrefs
      split at hcheck
      · rename_i hempty
        rw [List.isEmpty_iff.1 hempty]
      · cases hcheck
  obtain ⟨walks, hwalks, hfound⟩ := except_bind_eq_ok hincomplete
  obtain ⟨found, hfound, hempty⟩ := except_bind_eq_ok hfound
  obtain ⟨walk, hwalk, hpair⟩ :=
    forall₂_mem_left (forall₂_of_mapM_ok hwalks) (Array.mem_toList_iff.2 howner)
  obtain ⟨ids, hids, heq⟩ := except_bind_eq_ok hpair
  cases heq
  refine ⟨ids, hids, fun id hid node hnode => ?_⟩
  -- A node that does not pass is among those found, but none was found.
  obtain ⟨refs, hrefs, hpart⟩ := forall₂_mem_left (forall₂_of_mapM_ok hfound) hwalk
  have hnil : refs = [] := List.flatten_eq_nil_iff.1 (Except.ok.inj hempty) refs hrefs
  by_contra hfails
  have hmem : owner.ref id ∈ refs := by
    refine mem_of_filterMapM_ok hpart hid fun ref? href => ?_
    simp only [hnode, bind, Except.bind] at href
    split at href
    · cases href
    · rename_i passed hpassed
      cases passed with
      | true => exact absurd hpassed hfails
      | false =>
        cases href
        rfl
  rw [hnil] at hmem
  cases hmem

/-- A value of a type without members has no extent but that of the whole. -/
theorem eq_whole_of_isComplete {ref : NodeRef} {flow : NodeFlow} {ty : Ty}
    (h : results.isComplete decls ref ty = .ok true) (hflow : results.flow? ref = some flow)
    (hty : ty.aggregate? = none) {path : Path} {extent : Extent}
    (hextent : flow.bundle[path]? = some extent) : path = .whole := by
  simp only [ProgramFlow.isComplete, hflow] at h
  obtain ⟨members, hmembers, hkeys⟩ := except_bind_eq_ok h
  have hmem : path ∈ members.map Prod.fst := by
    have hkey : path ∈ flow.bundle.keys := by simp [ExtTreeMap.mem_iff_isSome_getElem?, hextent]
    rw [of_decide_eq_true (Except.ok.inj hkeys)] at hkey
    simpa using hkey
  rw [Declarations.members, Declarations.membersWithin, hty] at hmembers
  split at hmembers <;> cases hmembers
  · cases hmem
  · simpa using hmem

end Programs

/-- Where the data of a value is said to be in heap memory only, no part of it rests on a region
that ends, in the final graph. That is so for values without members, for variables, calls, and what
is read through a reference, for members and blocks of these, and for struct literals. -/
theorem rootsOf_eq_empty_of_heap {items : List Item} {assembly : Program.Assembly}
    (hitems : Program.ofItems items = .ok assembly) {options : Options} {results : ProgramFlow}
    (h : analyze assembly.program assembly.declarations options = .ok results) {owner : Owner}
    (howner : owner ∈ assembly.program.owners) {function : Function}
    (hkind : owner.kind = .function function) {id : NodeId} {node : Node}
    (hnode : owner.node id = .ok node) (hrelied : node.ty.aggregate? = none ∨
      Relied (.ofFunction (.ofFunction assembly.declarations options owner function) function) id)
    (hheap : results.storage (owner.ref id) = .ok .heap) :
    ∃ bundle, results.lifetimes (owner.ref id) = .ok bundle ∧
      ∀ l ∈ bundle.tracked, results.context.graph.rootsOf l = ∅ := by
  obtain ⟨context, s', hrun, hrecorded, hbelow⟩ :=
    exists_runs_below_of_analyze h (Program.nodup_ids hitems) howner hkind
  obtain ⟨bundle, hbundle, hclass⟩ := except_bind_eq_ok hheap
  obtain ⟨flow, hflow, rfl⟩ : ∃ flow, results.flow? (owner.ref id) = some flow ∧
      flow.bundle = bundle := by
    unfold ProgramFlow.lifetimes at hbundle
    split at hbundle <;> cases hbundle
    exact ⟨_, ‹_›, rfl⟩
  have hid : s'.flowAt id = some flow := by
    rw [State.flowAt_eq_some_iff]
    simp only [ProgramFlow.flow?, Owner.ref, hrecorded] at hflow
    cases hget : s'.recorded.get? id <;> simp_all
  -- The analysis of the function comes to its end through transitions.
  obtain ⟨p', -, hsteps⟩ := steps_of_analyzeFunction hrun
  have hattested := (Inside.here hsteps).attested (coherent_start _ _) rfl (by simp [flowAt_start])
  refine ⟨flow.bundle, hbundle, fun l hl => ?_⟩
  refine Bundle.Covered.rootsOf_eq_empty ?_ (Except.ok.inj hclass) hl
  rcases hrelied with hty | hrelied
  · -- Without members, the whole is all there is.
    obtain ⟨ids, hwalk, hcomplete⟩ := isComplete_of_analyze h howner
    obtain ⟨position, -, hvisits, -⟩ := (hattested id flow hid).exists_result hnode rfl
    obtain ⟨root, hroot, hleads⟩ := Traverses.leads hvisits
    obtain rfl := List.mem_singleton.1 hroot
    rw [Owner.walk_eq hkind] at hwalk
    have hpaths := hcomplete id (hleads.mem_walkFrom hwalk) node hnode
    intro whole hwhole
    refine .inr fun path other hother => .inr ?_
    rw [eq_whole_of_isComplete hpaths hflow hty hother] at hother
    cases hwhole.symm.trans hother
    exact .refl _ _
  · exact (hrelied.covered hattested flow hid).mono hbelow

/-- With `struct S { int* a; }`, the function
`f() { s = S { a: new int }; x = 0; s.a = &x; t = if true { s } else { s }; }`. -/
def patching : List Item := [
  .aggregate .struct "S" [⟨"a", .pointer .int, true⟩],
  .function "f" [] .void (.block [
    .declare "s" (.record (.nominal (.ofString "S") .struct) [("a", .newDefault .int)]),
    .declare "x" (.literal (.int 0)),
    .assign (.member (.var "s") "a") (.addressOf (.var "x")),
    .declare "t" (.cond (.literal (.bool true)) (.var "s") (some (.var "s")))])]

/-- The slot of `x`. -/
def patched : Lifetime := .root ⟨["f", "$block_0", "x"]⟩ .localSlot

/-- The struct literal is in heap memory as a whole. The joined value is said to be, but its member
is not. -/
theorem heap_of_patching : ∃ assembly results owner, Program.ofItems patching = .ok assembly ∧
    analyze assembly.program assembly.declarations {} = .ok results ∧
    owner ∈ assembly.program.owners ∧
    (results.storage (owner.ref ⟨1⟩) = .ok .heap ∧ ∃ bundle,
      results.lifetimes (owner.ref ⟨1⟩) = .ok bundle ∧
        ∀ l ∈ bundle.tracked, results.context.graph.rootsOf l = ∅) ∧
    results.storage (owner.ref ⟨13⟩) = .ok .heap ∧ ∃ bundle,
      results.lifetimes (owner.ref ⟨13⟩) = .ok bundle ∧
        ∃ l ∈ bundle.tracked, patched ∈ results.context.graph.rootsOf l := by
  have h : Accepts patching {} fun assembly results => ∃ owner ∈ assembly.program.owners,
      ∃ function, owner.kind = .function function ∧
      (∃ node, owner.node ⟨1⟩ = .ok node ∧ node.expr = .structLiteral [("a", ⟨0⟩)]) ∧
      results.storage (owner.ref ⟨1⟩) = .ok .heap ∧
      results.storage (owner.ref ⟨13⟩) = .ok .heap ∧
      ∃ bundle, results.lifetimes (owner.ref ⟨13⟩) = .ok bundle ∧
        ∃ l ∈ bundle.tracked, patched ∈ results.context.graph.rootsOf l := by
    decide +kernel
  obtain ⟨assembly, hitems, results, haccepted, owner, howner, function, hkind,
    ⟨node, hnode, hexpr⟩, hliteral, hjoined, hmember⟩ := h
  exact ⟨assembly, results, owner, hitems, haccepted, howner,
    ⟨hliteral, rootsOf_eq_empty_of_heap hitems haccepted
    howner hkind hnode (.inr (.literal hnode hexpr)) hliteral⟩, hjoined, hmember⟩

end Flow
end Regions
