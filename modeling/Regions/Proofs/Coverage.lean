import Regions.Proofs.Coherence
import Regions.Proofs.Execution

/-!
# How lifetimes describe memory

The lifetimes of the analysis say of each address that a slot or a value may hold in which region it
leads. The regions that a lifetime rests on are read off the graph, with some further edges: the
analysis of a loop body comes before the edges that lead back to its entry.

* `Rests`: an address leads to a region that the lifetime rests on;
* `Covers`: a bundle describes a value;
* `Describes`: a frame describes the slots of variables;
* `Accounts`: the same for an execution that was left, where any version since will do;
* `Clean`: what was written to new cells of heap memory was logged, and checked.
-/

namespace Regions

open Relation

variable {bundle : Bundle} {value : Value}

/-- The region of storage that a reference to local storage leads to. -/
def Address.region? : Address → Option Lifetime
  | .slot x m => some (.root (x ++ m) .localSlot)
  | .passed x m => some (.root (x ++ m) .localValue)
  | _ => none

theorem Address.root_of_region? {address : Address} {region : Lifetime}
    (h : address.region? = some region) :
    region.isRoot = true ∧ region.isHeap = false ∧ region.isNone = false := by
  cases address with
  | slot x m | passed x m =>
    cases h
    exact ⟨rfl, rfl, rfl⟩
  | _ => cases h

/-- Whatever `l'` rests on, `l` rests on. -/
def Outlives.Leads (G : Outlives) (l l' : Lifetime) : Prop :=
  l'.isNone = false → l.isNone = false ∧ G.Reaches l l'

namespace Outlives

variable {G H : Outlives} {l l' : Lifetime}

theorem leads_of_unified (h : G.Unified l l') (hsome : l.isNone = false) : G.Leads l l' := by
  intro hsome'
  refine ⟨hsome, ?_⟩
  by_cases heq : l = l'
  · rw [heq]
    exact Reaches.refl G l'
  · exact Reaches.of_holds (h ⟨heq, hsome, hsome'⟩).1

end Outlives

namespace Flow

variable {env : Env} {function : Function} {E E' H : Lifetime → Lifetime → Prop}
  {l l' : Lifetime} {address : Address} {s s₁ s' : State} {memory memory₁ memory' : Memory}

/-! ## Addresses -/

/-- The graph of the state, with further edges. -/
def State.edges (s : State) (H : Lifetime → Lifetime → Prop) (container stored : Lifetime) :
    Prop :=
  s.context.graph.Holds container stored ∨ H container stored

theorem State.edges_of_edges (hgraph : s.context.graph.Below s'.context.graph)
    {container stored : Lifetime} (h : s.edges (s'.edges H) container stored) :
    s'.edges H container stored := by
  rcases h with hholds | hedge
  · exact .inl (hgraph container stored hholds)
  · exact hedge

/-- The address leads to heap memory, or to a region that the lifetime rests on. -/
def Rests (E : Lifetime → Lifetime → Prop) (l : Lifetime) (address : Address) : Prop :=
  address.isHeap = true ∨ ∃ region, address.region? = some region ∧ l.isNone = false ∧
    ReflTransGen E l region

theorem Rests.mono (hle : ∀ c x, E c x → E' c x) (h : Rests E l address) :
    Rests E' l address := by
  rcases h with hheap | ⟨region, hregion, hsome, hreach⟩
  · exact .inl hheap
  · exact .inr ⟨region, hregion, hsome, ReflTransGen.mono hle _ _ hreach⟩

theorem Rests.later (hgraph : s.context.graph.Below s'.context.graph)
    (h : Rests (s.edges H) l address) : Rests (s'.edges H) l address :=
  h.mono fun c x hedge => hedge.imp_left (hgraph c x)

/-- Along edges, the lifetimes that lead to others rest on more. -/
theorem Rests.through {G : Outlives} (hedges : ∀ c x, G.Holds c x → E c x)
    (hleads : G.Leads l l') (h : Rests E l' address) : Rests E l address := by
  rcases h with hheap | ⟨region, hregion, hsome, hreach⟩
  · exact .inl hheap
  · obtain ⟨hsome, hpath⟩ := hleads hsome
    have hpath' : ReflTransGen E l l' := ReflTransGen.mono hedges _ _ hpath
    exact .inr ⟨region, hregion, hsome, hpath'.trans hreach⟩

theorem Rests.lead (hleads : s.context.graph.Leads l l') (h : Rests (s.edges H) l' address) :
    Rests (s.edges H) l address :=
  h.through (fun _ _ => Or.inl) hleads

/-- Without further edges, a lifetime that rests on no region leads to heap memory only. -/
theorem Rests.isHeap_of_rootsOf (hempty : ∀ c x, ¬ H c x) (h : Rests (s.edges H) l address)
    (hroots : ∀ root, root ∉ s.context.graph.rootsOf l) : address.isHeap = true := by
  rcases h with hheap | ⟨region, hregion, -, hreach⟩
  · exact hheap
  · obtain ⟨hroot, hheap, hnone⟩ := Address.root_of_region? hregion
    refine absurd (Outlives.mem_rootsOf_iff.2 ⟨?_, hroot, hheap, hnone⟩) (hroots region)
    exact ReflTransGen.mono (fun c x hedge => hedge.resolve_right (hempty c x)) _ _ hreach

/-! ## Values -/

/-- The bundle describes the value. -/
def Covers (E : Lifetime → Lifetime → Prop) (bundle : Bundle) (value : Value) : Prop :=
  ∀ m address, value m = some address → address.isHeap = false →
    ∃ extent, bundle[m]? = some extent ∧ Rests E extent.value address

theorem Covers.mono (hle : ∀ c x, E c x → E' c x) (h : Covers E bundle value) :
    Covers E' bundle value := by
  intro m address hm hheap
  obtain ⟨extent, hextent, hrests⟩ := h m address hm hheap
  exact ⟨extent, hextent, hrests.mono hle⟩

theorem covers_of_onHeap (h : value.OnHeap) : Covers E bundle value := by
  intro m address hm hheap
  rw [h m address hm] at hheap
  cases hheap

theorem Covers.restrict {decls : Declarations} {ty : Ty}
    (h : ∀ m address, decls.refersAt ty m = true → value m = some address →
      address.isHeap = false → ∃ extent, bundle[m]? = some extent ∧
      Rests E extent.value address) :
    Covers E bundle (value.restrict decls ty) := by
  intro m address hm hheap
  obtain ⟨hrefers, hvalue⟩ := Value.restrict_eq_some hm
  exact h m address hrefers hvalue hheap

/-- A lifetime that leads to the data of a member describes what the member holds. -/
theorem Covers.rests {m : Path} {extent : Extent} (h : Covers (s.edges H) bundle value)
    (hvalue : value m = some address) (hextent : bundle[m]? = some extent)
    (hleads : s.context.graph.Leads l extent.value) : Rests (s.edges H) l address := by
  by_cases hheap : address.isHeap = true
  · exact .inl hheap
  · obtain ⟨found, hfound, hrests⟩ := h m address hvalue (by simpa using hheap)
    cases hextent.symm.trans hfound
    exact hrests.lead hleads

/-- The node has a bundle that describes the value. -/
def CoversNode (H : Lifetime → Lifetime → Prop) (s : State) (id : NodeId) (value : Value) :
    Prop :=
  ∃ flow, s.flowAt id = some flow ∧ Covers (s.edges H) flow.bundle value

theorem CoversNode.later {id : NodeId} (h : CoversNode H s id value) (hgrows : Grows s s') :
    CoversNode H s' id value := by
  obtain ⟨flow, hflow, hcovers⟩ := h
  refine ⟨flow, hgrows.recorded id flow hflow, hcovers.mono fun c x hedge => ?_⟩
  exact hedge.imp_left (hgrows.graph c x)

/-! ## Slots -/

/-- The frame describes what the slots of its variables hold. -/
def Describes (env : Env) (function : Function) (E : Lifetime → Lifetime → Prop) (frame : Frame)
    (memory : Memory) : Prop :=
  ∀ x site ty m extent address, Binds function.parameters env.owner.nodes x site ty →
    frame.lookup? (x ++ m) = some extent → memory.slots x m = some address →
    Rests E extent.value address

theorem Describes.mono {frame frame' : Frame} (h : Describes env function E frame memory)
    (hle : ∀ c x, E c x → E' c x) (hframe : ∀ q, frame'.lookup? q = frame.lookup? q)
    (hslots : memory'.slots = memory.slots) : Describes env function E' frame' memory' := by
  intro x site ty m extent address hbinds hlookup hslot
  rw [hframe] at hlookup
  rw [hslots] at hslot
  exact (h x site ty m extent address hbinds hlookup hslot).mono hle

/-- Each slot holds what the frame of the first state says, or what a version says that came between
the states. -/
def Accounts (env : Env) (function : Function) (H : Lifetime → Lifetime → Prop) (s s' : State)
    (memory : Memory) : Prop :=
  ∀ x site ty m extent address, Binds function.parameters env.owner.nodes x site ty →
    s.frame.lookup? (x ++ m) = some extent → memory.slots x m = some address →
    Rests (s'.edges H) extent.value address ∨
      ∃ version, Logged s s' (x ++ m) version ∧ Rests (s'.edges H) version address

theorem Accounts.later (h : Accounts env function H s s₁ memory) (hgrows : Grows s₁ s') :
    Accounts env function H s s' memory := by
  intro x site ty m extent address hbinds hlookup hslot
  rcases h x site ty m extent address hbinds hlookup hslot
    with hrests | ⟨version, hlogged, hrests⟩
  · exact .inl (hrests.later hgrows.graph)
  · exact .inr ⟨version, hlogged.later hgrows, hrests.later hgrows.graph⟩

/-- What is visible in the first state is visible in the second, as it was or with a logged
version. -/
theorem Accounts.earlier (h : Accounts env function H s₁ s' memory) (hgrows : Grows s s₁)
    (hgrows' : Grows s₁ s') (hlookup : ∀ q extent, s.frame.lookup? q = some extent →
      s₁.frame.lookup? q = some extent ∨
      ∃ after, s₁.frame.lookup? q = some after ∧ Logged s s₁ q after.value) :
    Accounts env function H s s' memory := by
  intro x site ty m extent address hbinds hvisible hslot
  rcases hlookup (x ++ m) extent hvisible with hsame | ⟨after, hafter, hlogged⟩
  · rcases h x site ty m extent address hbinds hsame hslot
      with hrests | ⟨version, hlogged, hrests⟩
    · exact .inl hrests
    · exact .inr ⟨version, hlogged.earlier hgrows, hrests⟩
  · right
    rcases h x site ty m after address hbinds hafter hslot
      with hrests | ⟨version, hlogged', hrests⟩
    · exact ⟨after.value, hlogged.later hgrows', hrests⟩
    · exact ⟨version, hlogged'.earlier hgrows, hrests⟩

theorem Describes.accounts (h : Describes env function (s.edges H) s.frame memory)
    (hgrows : Grows s s') : Accounts env function H s s' memory := by
  intro x site ty m extent address hbinds hlookup hslot
  exact .inl ((h x site ty m extent address hbinds hlookup hslot).later hgrows.graph)

/-! ## Heap memory -/

/-- Heap memory was only added to. If writes to it are checked, an address of local storage in a new
cell was logged, and would have been found without the further edges. -/
structure Clean (env : Env) (H : Lifetime → Lifetime → Prop) (s s' : State)
    (memory memory' : Memory) : Prop where
  heap : memory.heap <+: memory'.heap
  cells : env.options.checkHeapStores = true →
    ∀ cell ∈ memory'.heap.drop memory.heap.length, ∀ m address, cell m = some address →
      address.isHeap = false → (∃ c x, H c x) ∧
        ∃ write ∈ s'.context.heapWrites.drop s.context.heapWrites.length,
          write.container.isHeap = true ∧ Rests (s'.edges H) write.stored address

namespace Clean

theorem of_heap_eq (h : memory'.heap = memory.heap) : Clean env H s s' memory memory' where
  heap := h ▸ List.prefix_rfl
  cells := by
    intro _ cell hcell
    rw [h, List.drop_length] at hcell
    cases hcell

theorem later (h : Clean env H s s₁ memory memory') (hgrows : Grows s₁ s') :
    Clean env H s s' memory memory' where
  heap := h.heap
  cells := by
    intro hcheck cell hcell m address hm hheap
    obtain ⟨hH, write, hwrite, hcontainer, hrests⟩ :=
      h.cells hcheck cell hcell m address hm hheap
    exact ⟨hH, write, (hgrows.heapWrites.drop _).subset hwrite, hcontainer,
      hrests.later hgrows.graph⟩

theorem earlier (h : Clean env H s₁ s' memory memory') (hgrows : Grows s s₁) :
    Clean env H s s' memory memory' where
  heap := h.heap
  cells := by
    intro hcheck cell hcell m address hm hheap
    obtain ⟨hH, write, hwrite, hcontainer, hrests⟩ :=
      h.cells hcheck cell hcell m address hm hheap
    exact ⟨hH, write, List.drop_subset_drop_left _ hgrows.heapWrites.length_le hwrite,
      hcontainer, hrests⟩

theorem trans (h : Clean env H s s' memory memory₁) (h' : Clean env H s s' memory₁ memory') :
    Clean env H s s' memory memory' where
  heap := h.heap.trans h'.heap
  cells := by
    intro hcheck cell hcell
    obtain ⟨cells, hcells⟩ := h.heap
    obtain ⟨cells', hcells'⟩ := h'.heap
    rw [← hcells', ← hcells, List.append_assoc, List.drop_left, List.mem_append] at hcell
    rcases hcell with hcell | hcell
    · refine h.cells hcheck cell ?_
      rw [← hcells, List.drop_left]
      exact hcell
    · refine h'.cells hcheck cell ?_
      rw [← hcells', List.drop_left]
      exact hcell

end Clean

end Flow
end Regions
