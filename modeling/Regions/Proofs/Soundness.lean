import Regions.Proofs.Iterations
import Regions.Proofs.Returns

/-!
# Soundness of the analysis

What the analysis accepts is safe when it is executed, as long as memory is reached through
variables only: a function does not return the address of storage that ends with it, and, where
writes to heap memory are checked, heap memory does not come to hold such an address.

* `safe_node`, `safe_call`, `safe_branch`: one node of an execution, from its parts;
* `Memory.Entered`: memory when the body of a function is entered;
* `Safe.onHeap`: what the analysis of a whole function says about its executions;
* `safe_of_exec`: every execution in an analysed program is safe.
-/

namespace Regions.Flow

variable {env : Env} {function : Function} {H : Lifetime → Lifetime → Prop} {s s₁ s' : State}
  {id condition body : NodeId} {ids : List NodeId} {node : Node} {value : Value} {outcome : Outcome}
  {values : List Value} {memory middle memory' : Memory} {depth : Nat}

/-! ## One node -/

theorem safe_jump (exit : Exit) : Safe env function [id] memory (.left exit) memory := by
  intro first last depth H s s' _ _ hrun hs
  exact ⟨nofun, hs.accounts (grows_analyzeNodes hrun), .of_heap_eq rfl⟩

section Nodes

variable (htidy : env.declarations.Tidy) (hshaped : Shaped env.declarations env.owner function)
  (hnode : env.owner.nodes.get? id = some node)

include htidy hshaped hnode

theorem safe_node (hoperands : Safe env function node.expr.operands memory (.done values) middle)
    (hfits : List.Forall₂ (FitsNode env.declarations env.owner.nodes) node.expr.operands values)
    (htyped : memory'.Typed env.declarations env.owner function)
    (hcomputes : Computes env.owner.nodes node.expr values middle value memory') :
    Safe env function [id] memory (.done [value.restrict env.declarations node.ty]) memory' := by
  intro first last depth H s s' hspans hready hrun hs
  obtain ⟨hreframes, hlast, below, hvisits, hrule⟩ :=
    visits_of_runs htidy hshaped hnode hspans hready hrun
  obtain ⟨s₀, s₁, hstages, hcompletes⟩ :=
    simulates_rule hvisits hreframes.grows hlast.lawful hrule
  obtain ⟨hdone, -, hclean⟩ := hstages.safe hoperands hs
  obtain ⟨hmiddle, hcovers⟩ := hdone values rfl
  obtain ⟨hdescribes, hcoversNode, hclean'⟩ :=
    hcompletes H values middle value memory' hmiddle hcovers hfits htyped hcomputes
  have hgrows := hstages.before.trans (grows_analyzeNodes hstages.runs)
  refine ⟨fun _ houtcome => ?_, hdescribes.accounts_of_reframes hready hreframes,
    hclean.trans (hclean'.earlier hgrows)⟩
  cases houtcome
  exact ⟨hdescribes, .cons hcoversNode .nil⟩

theorem safe_leave {exit : Exit}
    (hoperands : Safe env function node.expr.operands memory (.left exit) memory') :
    Safe env function [id] memory (.left exit) memory' := by
  intro first last depth H s s' hspans hready hrun hs
  obtain ⟨hreframes, hlast, below, hvisits, hrule⟩ :=
    visits_of_runs htidy hshaped hnode hspans hready hrun
  obtain ⟨s₀, s₁, hstages, -⟩ := simulates_rule hvisits hreframes.grows hlast.lawful hrule
  exact ⟨nofun, (hstages.safe hoperands hs).2⟩

/-- A called function may add cells of heap memory that lead nowhere else, and gives such a
value. -/
theorem safe_call {path : Path} {arguments : List NodeId} (hexpr : node.expr = .call path arguments)
    (harguments : Safe env function arguments memory (.done values) middle)
    (hslots : memory'.slots = middle.slots) (hheap : middle.heap <+: memory'.heap)
    (hcells : env.options.checkHeapStores = true →
      ∀ cell ∈ memory'.heap.drop middle.heap.length, cell.OnHeap)
    (houtcome : ∀ results, outcome = .done results → ∃ value, results = [value] ∧
      value.OnHeap) :
    Safe env function [id] memory outcome memory' := by
  intro first last depth H s s' hspans hready hrun hs
  obtain ⟨hreframes, -, below, hvisits, hrule⟩ :=
    visits_of_runs htidy hshaped hnode hspans hready hrun
  rw [hexpr] at hrule
  obtain ⟨s₁, _, _, hruns, _, _, _, bundle, hfinishes⟩ := runs_call hrule
  have hstages := hvisits.stages (by rw [hexpr]; rfl) (by rw [hexpr]; exact hruns) hfinishes.grows
  rw [hexpr] at hstages
  obtain ⟨hdone, -, hclean⟩ := hstages.safe harguments hs
  have hdescribes := (hdone values rfl).1.unchanged hfinishes.grows hfinishes.frame hslots
  have hclean' : Clean env H s s' middle memory' := by
    refine ⟨hheap, fun hcheck cell hcell m address hm hlocal => ?_⟩
    rw [hcells hcheck cell hcell m address hm] at hlocal
    cases hlocal
  refine ⟨fun results hresults => ⟨hdescribes, ?_⟩,
    hdescribes.accounts_of_reframes hready hreframes, hclean.trans hclean'⟩
  obtain ⟨value, rfl, hvalue⟩ := houtcome results hresults
  exact .cons (hfinishes.coversNode (covers_of_onHeap hvalue)) .nil

section Branches

variable {positive branch : NodeId} {negative : Option NodeId}
  (hexpr : node.expr = .cond condition positive negative)
  (hcondition : Safe env function [condition] memory (.done values) middle)
  (hbranch : branch = positive ∨ negative = some branch)

include hexpr hcondition hbranch

theorem safe_branch (htaken : Safe env function [branch] middle (.done [value]) memory') :
    Safe env function [id] memory (.done [value.restrict env.declarations node.ty]) memory' := by
  intro first last depth H s s' hspans hready hrun hs
  obtain ⟨hreframes, -, below, hvisits, hrule⟩ :=
    visits_of_runs htidy hshaped hnode hspans hready hrun
  rw [hexpr] at hrule
  obtain ⟨s₁, hbranches⟩ := branches_of_runs hvisits hexpr hrule
  obtain ⟨b₀, b₁, hstages, hjoin, hvalue⟩ := hbranches.taken branch hbranch
  obtain ⟨hdone, -, hclean⟩ := hbranches.condition.safe hcondition hs
  obtain ⟨hdone', -, hclean'⟩ := hstages.safe htaken (hdone values rfl).1
  obtain ⟨hlast, hcovers⟩ := hdone' [value] rfl
  have hdescribes := hjoin H memory' hlast
  have hgrows := grows_analyzeNodes hbranches.condition.runs
  refine ⟨fun _ houtcome => ?_, hdescribes.accounts_of_reframes hready hreframes,
    hclean.trans (hclean'.earlier hgrows)⟩
  cases houtcome
  exact ⟨hdescribes, .cons (hvalue H value (List.forall₂_cons.1 hcovers).1) .nil⟩

theorem safe_branchLeft {exit : Exit}
    (htaken : Safe env function [branch] middle (.left exit) memory') :
    Safe env function [id] memory (.left exit) memory' := by
  intro first last depth H s s' hspans hready hrun hs
  obtain ⟨-, -, below, hvisits, hrule⟩ :=
    visits_of_runs htidy hshaped hnode hspans hready hrun
  rw [hexpr] at hrule
  obtain ⟨s₁, hbranches⟩ := branches_of_runs hvisits hexpr hrule
  obtain ⟨b₀, b₁, hstages, -, -⟩ := hbranches.taken branch hbranch
  obtain ⟨hdone, -, hclean⟩ := hbranches.condition.safe hcondition hs
  obtain ⟨-, haccounts, hclean'⟩ := hstages.safe htaken (hdone values rfl).1
  obtain ⟨_, _, hbelow, hready⟩ := hbranches.condition.ready
  have hreframes := reframes_analyzeNodes hbelow hbranches.condition.runs
  refine ⟨nofun, ?_, hclean.trans (hclean'.earlier hreframes.grows)⟩
  exact haccounts.earlier hreframes.grows hbranches.condition.after fun q extent hvisible =>
    hready.lookup hreframes hvisible

end Branches
end Nodes

/-! ## Functions -/

/-- No edges besides those of the graph. -/
def NoEdge (_ _ : Lifetime) : Prop := False

/-- When the body of a function is reached, the state is ready for it and describes what was passed
in. -/
theorem ready_of_declareParameters {context : Context} {size : Nat} (htidy : env.declarations.Tidy)
    (hshaped : Shaped env.declarations env.owner function)
    (hrun : Runs (declareParameters env function.parameters) (.start context size) () s)
    (hentered : memory.Entered env.declarations function) :
    Ready env function 0 s ∧ Describes env function (s.edges H) s.frame memory := by
  have hstart := lawful_start (U := DataPath env function) context size
  obtain ⟨hvisible, hflows⟩ := runs_declareParameters (fun _ hp => hp) (by
    intro q extent hlookup
    rw [lookup?_start] at hlookup
    cases hlookup) hrun
  refine ⟨⟨fun id _ => ?_, ?_, ?_⟩, ?_⟩
  · rw [hflows, flowAt_start]
  · intro q extent hlookup id node x value m _ hnode hexpr hq
    obtain ⟨p, hp, fields, field, -, -, hpath, -⟩ := hvisible q extent hlookup
    have hfits := hshaped.fitting id node (env_node_eq_ok_iff.1 hnode)
    rw [hexpr] at hfits
    obtain ⟨initial, hinitial⟩ := hfits
    obtain ⟨-, hsite, -⟩ := hshaped.apart (.parameter hp)
      (.declaration (env_node_eq_ok_iff.1 hnode) hexpr hinitial) (hpath.symm.trans hq)
    cases hsite
  · refine hstart.declareParameters (declaresData_dataPath htidy hshaped)
      (fun p hp fields hfields field hfield huntracked => ?_) hrun
    intro x site ty m hbinds hq
    obtain ⟨rfl, -, rfl⟩ := hshaped.apart (.parameter hp) hbinds hq
    rw [← Path.append_right_inj.1 hq]
    exact Declarations.refersAt_of_untracked htidy hfields hfield huntracked
  · intro x site ty m extent address hbinds hlookup hslot
    obtain ⟨⟨p, hp, rfl, hrefers⟩, hheap | rfl⟩ := hentered x m address hslot
    · exact .inl hheap
    · obtain ⟨p', hp', fields, field, hfield, hfields, hpath, hvalue⟩ :=
        hvisible _ extent hlookup
      obtain ⟨hsame, -, hty⟩ := hshaped.apart (.parameter hp) (.parameter hp') hpath
      rw [hsame] at hpath
      obtain rfl := Path.append_right_inj.1 hpath
      rw [hty] at hrefers
      obtain ⟨field', hfield', hpath', htracked⟩ :=
        Declarations.exists_field_of_refersAt htidy hfields hrefers
      obtain rfl := Declarations.field_eq_of_path_eq htidy hfields hfield' hfield hpath'
      rw [hvalue htracked]
      exact .inr ⟨_, rfl, rfl, .refl⟩

/-- What an analysed function returns leads to heap memory only, and so do the new cells of heap
memory, if writes to it are checked. -/
theorem Safe.onHeap {context : Context} {size : Nat} (htidy : env.declarations.Tidy)
    (hshaped : Shaped env.declarations env.owner function)
    (hrun : Runs (analyzeFunction env function) (.start context size) () s')
    (hentered : memory.Entered env.declarations function)
    (hsafe : Safe env function [function.body] memory outcome memory') :
    (∀ value, outcome = .done [value] → function.returns.isVoid = false → value.OnHeap) ∧
      memory.heap <+: memory'.heap ∧ (env.options.checkHeapStores = true →
        ∀ cell ∈ memory'.heap.drop memory.heap.length, cell.OnHeap) := by
  simp only [analyzeFunction, runs_bind_iff] at hrun
  obtain ⟨_, s₀, hparameters, _, s₁, hbody, hreturn⟩ := hrun
  obtain ⟨hready, hs₀⟩ :=
    ready_of_declareParameters (H := NoEdge) htidy hshaped hparameters hentered
  obtain ⟨hdone, -, hclean⟩ :=
    hsafe 0 _ _ NoEdge s₀ s₁ hshaped.spans hready (runs_forM_singleton_iff.2 hbody) hs₀
  refine ⟨fun value houtcome hvoid m address hm => ?_, hclean.heap,
    fun hcheck cell hcell m address hm => ?_⟩
  · obtain ⟨-, hcovers⟩ := hdone [value] houtcome
    obtain ⟨⟨flow, hflow, hcovers⟩, -⟩ := List.forall₂_cons.1 hcovers
    simp only [hvoid, Bool.false_eq_true, if_false] at hreturn
    by_contra hlocal
    obtain ⟨extent, hextent, hrests⟩ := hcovers m address hm (by simpa using hlocal)
    have hsome : extent.value.isNone = false := by
      rcases hrests with hheap | ⟨_, _, hsome, _⟩
      · exact absurd hheap hlocal
      · exact hsome
    exact hlocal (hrests.isHeap_of_rootsOf (fun _ _ hedge => hedge)
      (not_mem_rootsOf_of_checkReturn hreturn hflow
        (Bundle.mem_tracked_iff.2 ⟨m, extent, hextent, rfl, hsome⟩)))
  · by_contra hlocal
    obtain ⟨⟨_, _, hnone⟩, -⟩ :=
      hclean.cells hcheck cell hcell m address hm (by simpa using hlocal)
    exact hnone

/-! ## Programs -/

/-- Every function of the program has the right shape, and was analysed. -/
structure Analyzed (program : Program) (decls : Declarations) (options : Options) : Prop where
  tidy : decls.Tidy
  shaped : ∀ owner ∈ program.owners, ∀ function, owner.kind = .function function →
    Shaped decls owner function
  runs : ∀ owner ∈ program.owners, ∀ function, owner.kind = .function function →
    ∃ context s', Runs (analyzeFunction (.ofFunction decls options owner function) function)
      (.start context owner.nodes.size) () s'

/-- The execution of a task is safe. -/
def SafeTask (env : Env) (function : Function) :
    Regions.Task → Memory → Outcome → Memory → Prop
  | .eval id, memory, outcome, memory' => Safe env function [id] memory outcome memory'
  | .evalAll ids, memory, outcome, memory' => Safe env function ids memory outcome memory'
  | .iterate condition body, memory, _, memory' =>
    SafeLoop env function condition body memory memory'

variable {program : Program} {decls : Declarations} {options : Options} {owner : Owner}
  {task : Regions.Task}

/-- A function that is called gives back what leads to heap memory. -/
theorem Analyzed.onHeap (h : Analyzed program decls options) (howner : owner ∈ program.owners)
    (hkind : owner.kind = .function function) (hentered : memory.Entered decls function)
    (hsafe : Safe (.ofFunction decls options owner function) function [function.body] memory outcome
      memory') :
    (∀ value, outcome = .done [value] → (value.restrict decls function.returns).OnHeap) ∧
      memory.heap <+: memory'.heap ∧ (options.checkHeapStores = true →
        ∀ cell ∈ memory'.heap.drop memory.heap.length, cell.OnHeap) := by
  obtain ⟨context, s', hrun⟩ := h.runs owner howner function hkind
  obtain ⟨hvalue, hcells⟩ :=
    hsafe.onHeap h.tidy (h.shaped owner howner function hkind) hrun hentered
  refine ⟨fun value houtcome => ?_, hcells⟩
  intro m address hm
  -- Where the function is declared to give a reference, it is not declared to give nothing.
  obtain ⟨hrefers, hfound⟩ := Value.restrict_eq_some hm
  exact hvalue value houtcome (isVoid_of_refersAt hrefers) m address hfound

/-- Every execution in an analysed program is safe. -/
theorem safe_of_exec (h : Analyzed program decls options)
    (hexec : Exec program decls owner task memory outcome memory')
    (howner : owner ∈ program.owners) (hkind : owner.kind = .function function)
    (htyped : memory.Typed decls owner function) :
    SafeTask (.ofFunction decls options owner function) function task memory outcome memory' := by
  induction hexec generalizing function with
  | @stop owner task memory =>
    cases task with
    | eval id => exact Safe.stop [id] memory
    | evalAll ids => exact Safe.stop ids memory
    | iterate condition body => exact SafeLoop.refl condition body memory
  | node hnode hoperands hcomputes ih =>
    have hshaped := h.shaped _ howner _ hkind
    have hlast := hcomputes.typed hshaped hnode hoperands.fitsAll (hoperands.typed hshaped htyped)
    exact safe_node h.tidy hshaped hnode (ih howner hkind htyped) hoperands.fitsAll hlast hcomputes
  | leave hnode _ ih =>
    exact safe_leave h.tidy (h.shaped _ howner _ hkind) hnode (ih howner hkind htyped)
  | @call owner callee id node path arguments called memory middle last values value hnode hexpr
      harguments hcallee hcalled hpath hbody iharguments ihbody =>
    have hentered : (middle.called (Memory.arguments decls called.parameters values)).Entered decls
      called := Memory.entered_called
    have hsafe := ihbody hcallee hcalled (hentered.typed (h.shaped _ hcallee _ hcalled))
    obtain ⟨hvalue, -, hcells⟩ := h.onHeap hcallee hcalled hentered hsafe
    refine safe_call h.tidy (h.shaped _ howner _ hkind) hnode hexpr
      (iharguments howner hkind htyped)
      rfl ⟨_, rfl⟩ (fun hcheck cell hcell => ?_) (fun results hresults => ?_)
    · rw [Memory.returned, List.drop_left] at hcell
      obtain ⟨found, hfound, rfl⟩ := List.mem_map.1 hcell
      exact (hcells hcheck found hfound).leave _
    · cases hresults
      exact ⟨_, rfl, ((hvalue value rfl).leave _).restrict⟩
  | @callStop owner callee id node path arguments called memory middle last values hnode hexpr
      harguments hcallee hcalled hpath hbody iharguments ihbody =>
    have hentered : (middle.called (Memory.arguments decls called.parameters values)).Entered decls
      called := Memory.entered_called
    have hsafe := ihbody hcallee hcalled (hentered.typed (h.shaped _ hcallee _ hcalled))
    obtain ⟨-, -, hcells⟩ := h.onHeap hcallee hcalled hentered hsafe
    refine safe_call h.tidy (h.shaped _ howner _ hkind) hnode hexpr
      (iharguments howner hkind htyped)
      rfl ⟨_, rfl⟩ (fun hcheck cell hcell => ?_) nofun
    rw [Memory.returned, List.drop_left] at hcell
    obtain ⟨found, hfound, rfl⟩ := List.mem_map.1 hcell
    exact (hcells hcheck found hfound).leave _
  | foreign hnode hexpr _ _ hvalue hcells ih =>
    refine safe_call h.tidy (h.shaped _ howner _ hkind) hnode hexpr (ih howner hkind htyped)
      rfl ⟨_, rfl⟩ (fun _ cell hcell => ?_) (fun results hresults => ?_)
    · rw [List.drop_left] at hcell
      exact hcells cell hcell
    · cases hresults
      exact ⟨_, rfl, hvalue.restrict⟩
  | branch hnode hexpr hcondition hbranch _ ihcondition ihbranch =>
    have hshaped := h.shaped _ howner _ hkind
    exact safe_branch h.tidy hshaped hnode hexpr (ihcondition howner hkind htyped) hbranch
      (ihbranch howner hkind (hcondition.typed hshaped htyped))
  | branchLeft hnode hexpr hcondition hbranch _ ihcondition ihbranch =>
    have hshaped := h.shaped _ howner _ hkind
    exact safe_branchLeft h.tidy hshaped hnode hexpr (ihcondition howner hkind htyped) hbranch
      (ihbranch howner hkind (hcondition.typed hshaped htyped))
  | loop hnode hexpr _ ih =>
    refine safe_loop h.tidy (h.shaped _ howner _ hkind) hnode hexpr (ih howner hkind htyped) ?_
    rintro _ ⟨⟩
    rfl
  | loopStop hnode hexpr _ ih =>
    exact safe_loop h.tidy (h.shaped _ howner _ hkind) hnode hexpr (ih howner hkind htyped) nofun
  | breakLoop _ _ => exact safe_jump .breakLoop
  | continueLoop _ _ => exact safe_jump .continueLoop
  | nil => exact Safe.nil _
  | cons hfirst _ ihfirst ihrest =>
    have hshaped := h.shaped _ howner _ hkind
    exact Safe.cons h.tidy hshaped (ihfirst howner hkind htyped)
      (ihrest howner hkind (hfirst.typed hshaped htyped))
  | consLeft _ ih => exact Safe.consLeft (ih howner hkind htyped)
  | @finish owner condition body memory last value hcondition ih =>
    have hshaped := h.shaped _ howner _ hkind
    -- The body is not reached: the iteration is one that stops before it.
    have hcut : Exec program decls owner (.evalAll [condition, body]) memory (.left .stop) last :=
      .cons hcondition .stop
    refine SafeLoop.once (Safe.cons h.tidy hshaped (ih howner hkind htyped) (Safe.stop [body] last))
      (hcut.typed hshaped htyped) fun first last hspans => hcut.changed hspans
  | again hfirst _ _ ihfirst ihrest =>
    have hmiddle := hfirst.typed (h.shaped _ howner _ hkind) htyped
    exact (SafeLoop.once (ihfirst howner hkind htyped) hmiddle fun first last hspans =>
      hfirst.changed hspans).trans (ihrest howner hkind hmiddle)
  | broken hfirst ih | stopped hfirst ih =>
    exact SafeLoop.once (ih howner hkind htyped) (hfirst.typed (h.shaped _ howner _ hkind) htyped)
      fun first last hspans => hfirst.changed hspans

end Regions.Flow
