import Regions.Proofs.Completions
import Regions.Proofs.Walks

/-!
# Executions of several nodes and of loops

* `Safe.cons`, `Safe.stop`: executions of nodes, one after the other or cut short;
* `Returns`: what an iteration of a loop leaves is described at the start of the next one;
* `SafeLoop`: executions of a loop, if that is so;
* `mem_assigned`: a loop that assigns to a variable knows it;
* `returns_of_runsLoop`: with the edges that lead back to the entry versions, it is so;
* `safe_loop`: executions of a loop are safe.
-/

namespace Regions.Flow

variable {env : Env} {function : Function} {H : Lifetime → Lifetime → Prop}
  {s s₀ s₁ s₂ s' : State} {id condition body : NodeId} {ids : List NodeId} {node : Node}
  {value : Value} {outcome : Outcome} {memory middle memory' : Memory} {depth first : Nat}
  {effects : LoopEffects} {candidates : List Path}

/-! ## Nodes in order -/

theorem Safe.stop (ids : List NodeId) (memory : Memory) :
    Safe env function ids memory (.left .stop) memory := by
  intro first last depth H s s' _ _ hrun hs
  refine ⟨nofun, ?_, .of_heap_eq rfl⟩
  exact hs.accounts (grows_analyzeNodes hrun)

theorem Safe.nil (memory : Memory) : Safe env function [] memory (.done []) memory := by
  intro first last depth H s s' _ _ hrun hs
  obtain rfl := runs_forM_nil_iff.1 hrun
  refine ⟨fun values houtcome => ?_, hs.accounts (Grows.refl s), .of_heap_eq rfl⟩
  cases houtcome
  exact ⟨hs, .nil⟩

theorem Safe.cons (htidy : env.declarations.Tidy)
    (hshaped : Shaped env.declarations env.owner function)
    (hfirst : Safe env function [id] memory (.done [value]) middle)
    (hrest : Safe env function ids middle outcome memory') :
    Safe env function (id :: ids) memory (outcome.prepend value) memory' := by
  intro first last depth H s s' hspans hready hrun hs
  obtain ⟨s₁, hrun₁, hrun₂⟩ := runs_forM_cons_iff.1 hrun
  obtain ⟨htree, hspans⟩ := hspans.head
  have hready₁ := hready.analyze htidy hshaped htree hrun₁
  have hreframes := reframes_of_spans htree hrun₁
  have hgrows := grows_analyzeNodes hrun₂
  obtain ⟨hdone, -, hclean⟩ :=
    hfirst _ _ depth H s s₁ htree hready (runs_forM_singleton_iff.2 hrun₁) hs
  obtain ⟨hmiddle, hcovers⟩ := hdone [value] rfl
  obtain ⟨hdone', haccounts, hclean'⟩ :=
    hrest _ _ depth H s₁ s' hspans hready₁ hrun₂ hmiddle
  refine ⟨fun values houtcome => ?_, ?_,
    (hclean.later hgrows).trans (hclean'.earlier hreframes.grows)⟩
  · cases outcome with
    | left exit => cases houtcome
    | done rest =>
      cases houtcome
      obtain ⟨hlast, hothers⟩ := hdone' rest rfl
      exact ⟨hlast, .cons ((List.forall₂_cons.1 hcovers).1.later hgrows) hothers⟩
  · exact haccounts.earlier hreframes.grows hgrows fun q extent hvisible =>
      hready.lookup hreframes hvisible

theorem Safe.consLeft {exit : Exit} (hfirst : Safe env function [id] memory (.left exit) memory') :
    Safe env function (id :: ids) memory (.left exit) memory' := by
  intro first last depth H s s' hspans hready hrun hs
  obtain ⟨s₁, hrun₁, hrun₂⟩ := runs_forM_cons_iff.1 hrun
  have hgrows := grows_analyzeNodes hrun₂
  obtain ⟨-, haccounts, hclean⟩ :=
    hfirst _ _ depth H s s₁ hspans.head.1 hready (runs_forM_singleton_iff.2 hrun₁) hs
  exact ⟨nofun, haccounts.later hgrows, hclean.later hgrows⟩

/-! ## Iterations -/

/-- What an iteration leaves is described at the start of the next one. -/
def Returns (env : Env) (function : Function) (H : Lifetime → Lifetime → Prop)
    (first last : Nat) (s s' : State) : Prop :=
  ∀ memory memory', memory'.Typed env.declarations env.owner function →
    Changed env.owner.nodes first last memory memory' →
    Describes env function (s.edges H) s.frame memory → Accounts env function H s s' memory' →
    Describes env function (s.edges H) s.frame memory'

/-- Whenever an iteration is analysed and what it leaves is described at its start, any number of
iterations leaves what is described there. -/
def SafeLoop (env : Env) (function : Function) (condition body : NodeId) (memory memory' : Memory) :
    Prop :=
  ∀ first last depth H s s', Spans env.owner.nodes first [condition, body] last →
    Ready env function first s →
    Runs ([condition, body].forM (analyzeNode env depth .value)) s () s' →
    Returns env function H first last s s' → Describes env function (s.edges H) s.frame memory →
    Describes env function (s.edges H) s.frame memory' ∧ Clean env H s s' memory memory'

theorem SafeLoop.refl (condition body : NodeId) (memory : Memory) :
    SafeLoop env function condition body memory memory :=
  fun _ _ _ _ _ _ _ _ _ _ hs => ⟨hs, .of_heap_eq rfl⟩

theorem SafeLoop.once (h : Safe env function [condition, body] memory outcome memory')
    (htyped : memory'.Typed env.declarations env.owner function)
    (hchanged : ∀ first last, Spans env.owner.nodes first [condition, body] last →
      Changed env.owner.nodes first last memory memory') :
    SafeLoop env function condition body memory memory' := by
  intro first last depth H s s' hspans hready hrun hreturns hs
  obtain ⟨-, haccounts, hclean⟩ := h first last depth H s s' hspans hready hrun hs
  exact ⟨hreturns memory memory' htyped (hchanged first last hspans) hs haccounts, hclean⟩

theorem SafeLoop.trans (h : SafeLoop env function condition body memory middle)
    (h' : SafeLoop env function condition body middle memory') :
    SafeLoop env function condition body memory memory' := by
  intro first last depth H s s' hspans hready hrun hreturns hs
  obtain ⟨hmiddle, hclean⟩ := h first last depth H s s' hspans hready hrun hreturns hs
  obtain ⟨hlast, hclean'⟩ := h' first last depth H s s' hspans hready hrun hreturns hmiddle
  exact ⟨hlast, hclean.trans hclean'⟩

/-! ## Loops know what they assign to -/

theorem mem_assigned {owner : Owner} {last : Nat}
    (h : loopEffects owner condition body = .ok effects)
    (hspans : Spans owner.nodes first [condition, body] last) (hfirst : first ≤ id.index)
    (hlast : id.index < last) (hnode : owner.nodes.get? id = some node) {target source : NodeId}
    (hexpr : node.expr = .assignment target source) {x m : Path}
    (hnames : Names owner.nodes target x m) : x ++ m ∈ effects.assigned := by
  obtain ⟨walk, hwalk, h⟩ := except_bind_eq_ok h
  obtain ⟨walk', hwalk', h⟩ := except_bind_eq_ok h
  obtain ⟨assigned, hassigned, h⟩ := except_bind_eq_ok h
  obtain ⟨addressTaken, -, h⟩ := except_bind_eq_ok h
  cases h
  have hmem : id ∈ walk ++ walk' := by
    have hparts : [condition, body].mapM (owner.walkFrom owner.depth) = .ok [walk, walk'] := by
      simp [hwalk, hwalk', bind, Except.bind, pure, Except.pure]
    simpa using hspans.mem_walk hparts hfirst hlast
  exact mem_namedPaths hassigned hmem hnode (by rw [hexpr]) hnames

/-! ## What flows back -/

section

variable
  (h : RunsLoop env (analyzeNode env depth) id condition body effects candidates
    s s₀ s₁ s₂ s')

include h

/-- At the end of the loop all edges are there that lead back to the entry versions. -/
theorem returns_of_runsLoop {last : Nat} (hready : Ready env function first s)
    (hspans : Spans env.owner.nodes first [condition, body] last) :
    Returns env function (s'.edges H) first last
    { s₁ with frame := s₁.frame.loopBody } s₂ := by
  intro memory memory' htyped hchanged hs haccounts x site ty m extent address hbinds hlookup hslot
  rw [Frame.lookup?_loopBody] at hlookup
  -- Edges of an iteration are still there when the loop is left.
  have hedges : ∀ c l, s₂.edges (s'.edges H) c l →
      State.edges { s₁ with frame := s₁.frame.loopBody } (s'.edges H) c l :=
    fun _ _ hedge => .inr (State.edges_of_edges h.leaves.1.graph hedge)
  rcases haccounts x site ty m extent address hbinds
    ((Frame.lookup?_loopBody _ _).trans hlookup) hslot with hrests | ⟨version, hlogged, hrests⟩
  · exact hrests.mono hedges
  by_cases hcandidate : x ++ m ∈ candidates
  · exact (hrests.mono hedges).through (fun c l hedge => .inr (.inl hedge))
      (leads_of_tied (h.back _ hcandidate extent hlookup).1
        ((h.back _ hcandidate extent hlookup).2 version hlogged))
  by_cases hsame : memory'.slots x m = memory.slots x m
  · rw [hsame] at hslot
    exact hs x site ty m extent address hbinds ((Frame.lookup?_loopBody _ _).trans hlookup) hslot
  -- The slot was written to in the loop, though its variable is no candidate.
  exfalso
  have hvisible : s.frame.lookup? (x ++ m) = some extent := by
    rw [← hlookup, h.enters.renews.kept hcandidate, h.enters.frame]
  obtain ⟨writer, node, hlow, hhigh, hnode, hwrites⟩ := hchanged x m hsame
  rcases hwrites
    with ⟨initializer, hexpr⟩ | ⟨target, source, base, rest, hexpr, hnames, rfl⟩
  · exact hready.closed _ extent hvisible writer node x initializer m hlow
      (env_node_eq_ok_iff.2 hnode) hexpr rfl
  · have hassigned := mem_assigned h.enters.reads hspans hlow hhigh hnode hexpr hnames
    cases hnone : extent.value.isNone with
    | false =>
      have hstarts : (x ++ (base ++ rest)).startsWith (x ++ base) = true := by
        rw [← Path.append_assoc]
        exact Path.startsWith_iff.2 ⟨rest, rfl⟩
      refine hcandidate ((h.enters.covers _).2 ⟨extent, hvisible, hnone, ?_⟩)
      rw [LoopEffects.mayChange,
        List.any_eq_true.2 ⟨x ++ base, hassigned, hstarts⟩, Bool.or_true]
    | true =>
      have hplain := (hready.lawful.frame _ _ hvisible).data hnone x site ty _ hbinds rfl
      rw [htyped x site ty _ address hbinds hslot] at hplain
      cases hplain

/-- The state at the start of an iteration is ready for it, and describes what the state before the
loop describes. -/
theorem RunsLoop.start (hready : Ready env function first s)
    (hs : Describes env function (s.edges H) s.frame memory) :
    Ready env function first { s₁ with frame := s₁.frame.loopBody } ∧
      Describes env function (s₁.edges H) s₁.frame memory := by
  have hgrows := h.enters.grows
  have hflows := h.enters.flowAt
  constructor
  · refine hready.of_visible le_rfl
      (fun node hnode => (hflows node).trans (hready.fresh node hnode))
      (fun q extent hvisible => ?_) ?_
    · rw [Frame.lookup?_loopBody] at hvisible
      rw [← h.enters.frame]
      by_cases hcandidate : q ∈ candidates
      · obtain ⟨before, -, hbefore, -⟩ := h.enters.renews.renewed hcandidate
        exact ⟨before, hbefore⟩
      · exact ⟨extent, (h.enters.renews.kept hcandidate).symm.trans hvisible⟩
    · have hlawful := h.enters.lawful hready.lawful
      refine ⟨fun path extent hvisible => hlawful.frame path extent ?_, hlawful.recorded⟩
      rwa [Frame.lookup?_loopBody] at hvisible
  · -- An entry version leads to what the variable was before the loop.
    refine h.enters.renews.describes s.frame ∅ (by simp) (by simp) (fun q before hbefore => ?_)
      (hs.mono (fun c l hedge => hedge.imp_left (hgrows.graph c l)) (fun _ => rfl) rfl)
    rw [h.enters.frame] at hbefore
    simpa using hbefore

/-- Writes of the iterations were checked once more with the edges that lead back. -/
theorem RunsLoop.clean
    (hclean : Clean env (s'.edges H) { s₁ with frame := s₁.frame.loopBody } s₂
      memory memory') :
    Clean env H s s' memory memory' := by
  have hlast : Clean env H s₁ s' memory memory' := by
    refine ⟨hclean.heap, fun hcheck cell hcell m address hm hheap => ?_⟩
    obtain ⟨-, write, hwrite, hcontainer, hrests⟩ :=
      hclean.cells hcheck cell hcell m address hm hheap
    have hrests' : Rests (s'.edges H) write.stored address :=
      hrests.mono fun _ _ hedge => State.edges_of_edges h.leaves.1.graph hedge
    refine ⟨?_, write, (h.leaves.1.heapWrites.drop _).subset hwrite, hcontainer, hrests'⟩
    by_contra hempty
    simp only [not_exists] at hempty
    rw [hrests'.isHeap_of_rootsOf hempty (h.verified hcheck write hwrite hcontainer)] at hheap
    cases hheap
  exact hlast.earlier h.enters.grows

end

theorem safe_loop (htidy : env.declarations.Tidy)
    (hshaped : Shaped env.declarations env.owner function)
    (hnode : env.owner.nodes.get? id = some node) (hexpr : node.expr = .loop condition body)
    (hloop : SafeLoop env function condition body memory memory')
    (houtcome : ∀ values, outcome = .done values → values = [.plain]) :
    Safe env function [id] memory outcome memory' := by
  intro first last depth H s s' hspans hready hrun hs
  obtain ⟨hreframes, -, below, -, hrule⟩ :=
    visits_of_runs htidy hshaped hnode hspans hready hrun
  obtain ⟨hspans, -⟩ := hspans.root hnode
  rw [hexpr] at hspans hrule
  obtain ⟨effects, candidates, s₀, s₁, s₂, h⟩ := runs_loop hrule
  obtain ⟨hready₁, hs₁⟩ := h.start hready hs
  have hgrows : Grows s₁ s' :=
    (Grows.frame s₁ _).trans ((grows_analyzeNodes h.iterates).trans h.leaves.1)
  -- The iterations are executed with all edges that the loop has in the end.
  obtain ⟨hlast, hclean⟩ := hloop first id.index below (s'.edges H)
    { s₁ with frame := s₁.frame.loopBody } s₂ hspans hready₁ h.iterates
    (returns_of_runsLoop h hready hspans)
    (hs₁.mono (fun c l hedge => hedge.imp_right .inr) (Frame.lookup?_loopBody _) rfl)
  have hdescribes : Describes env function (s'.edges H) s'.frame memory' := by
    refine hlast.mono (fun _ _ hedge => State.edges_of_edges hgrows.graph hedge) (fun q => ?_) rfl
    rw [h.leaves.2.1, Frame.lookup?_loopBody]
  refine ⟨fun values hvalues => ⟨hdescribes, ?_⟩, ?_, h.clean hclean⟩
  · obtain rfl := houtcome values hvalues
    obtain ⟨escaping, hflow⟩ := h.leaves.2.2.2
    exact .cons ⟨_, hflow, covers_of_onHeap Value.onHeap_plain⟩ .nil
  · exact hdescribes.accounts_of_reframes hready hreframes

end Regions.Flow
