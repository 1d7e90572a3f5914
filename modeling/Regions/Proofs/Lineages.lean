import Regions.Proofs.Extents

/-!
# Lineages

A version of a variable is either made where executions meet, and then holds the versions that meet
there, or it is a copy: it stands for the same data as one other lifetime, its source. Since every
version is new when it is made, a copy has one source for good, and the copies form a forest.

* `Reason`: why a lifetime holds another, in terms that stay true;
* `Lineage`: all that was stored since some state has such a reason;
* `lasts_lineage`: the transitions of a function keep a lineage.
-/

namespace Regions

/-- The node carries references. -/
def Owner.Refers (decls : Declarations) (owner : Owner) (id : NodeId) : Prop :=
  ∃ node, owner.nodes.get? id = some node ∧ decls.tracked node.ty = .ok true

instance (decls : Declarations) (owner : Owner) (id : NodeId) : Decidable (owner.Refers decls id) :=
  decidable_of_iff ((owner.nodes.get? id).any fun node => decide (decls.tracked node.ty = .ok true))
    (by simp [Owner.Refers, Option.any_eq_true])

namespace Flow

variable {X : Setting} {p p' : Progress X} {s s' base : State} {path : Path}
  {sources : Lifetime → Option Lifetime} {c x : Lifetime} {task : Task X} {field : Field}
  {version : Lifetime} {context : Context}

/-! ## Reasons that stay -/

theorem Pointer.later {expr : Expr} {kind : String} {pointer : Extent}
    (h : Pointer s expr kind pointer) (hgrows : Grows s s') : Pointer s' expr kind pointer := by
  cases h with
  | dereference hflow hwhole => exact .dereference (hgrows.recorded _ _ hflow) hwhole
  | index hflow hwhole => exact .index (hgrows.recorded _ _ hflow) hwhole

theorem Stores.later (h : Stores s task c x) (hgrows : Grows s s') :
    Stores s' task c x := by
  cases h with
  | read hposition hpointer hfields hfield htracked hregion =>
    exact .read hposition (hpointer.later hgrows) hfields hfield htracked (hgrows.roots _ hregion)
  | written hposition hpointer hfields hfield htracked hholder =>
    exact .written hposition (hpointer.later hgrows) hfields hfield htracked hholder
  | inserted hposition hexpr hfield hflow hdata htracked =>
    exact .inserted hposition hexpr hfield (hgrows.recorded _ _ hflow) hdata htracked
  | initialized hposition hexpr hflow hextent hregion hty hfields hfield =>
    exact .initialized hposition hexpr (hgrows.recorded _ _ hflow) hextent
      (hgrows.roots _ hregion) hty hfields hfield
  | joined hposition hexpr hbranch hflow hextent hvoid hfields hfield htracked =>
    exact .joined hposition hexpr hbranch (hgrows.recorded _ _ hflow) hextent hvoid hfields
      hfield htracked
  | mixed hposition hexpr hne hstored hcontainer hstoredFlow hcontainerFlow hty htracked
      hvalue hholder hstoredTy =>
    exact .mixed hposition hexpr hne hstored hcontainer (hgrows.recorded _ _ hstoredFlow)
      (hgrows.recorded _ _ hcontainerFlow) hty htracked hvalue hholder hstoredTy

theorem Assigning.later {place new : Extent}
    (h : Assigning s task field place new) (hgrows : Grows s s') :
    Assigning s' task field place new where
  position := h.position
  operands := by
    obtain ⟨target, value, places, assigned, ty, fields, hexpr, htarget, hvalue, hrest⟩ :=
      h.operands
    exact ⟨target, value, places, assigned, ty, fields, hexpr, hgrows.recorded _ _ htarget,
      hgrows.recorded _ _ hvalue, hrest⟩

theorem Declaring.later {initial? : Option Extent}
    (h : Declaring s task path field initial?) (hgrows : Grows s s') :
    Declaring s' task path field initial? where
  position := h.position
  operands := by
    obtain ⟨value, flow, ty, fields, hexpr, hflow, hrest⟩ := h.operands
    exact ⟨value, flow, ty, fields, hexpr, hgrows.recorded _ _ hflow, hrest⟩

/-- The node is at work, or has got its result. -/
def Underway (p : Progress X) (s : State) (id : NodeId) : Prop :=
  s.flowAt id ≠ none ∨ ∃ task, p.task = some task ∧ task.id = id

theorem Underway.later {id : NodeId} (h : Underway p s id) (hgrows : Grows s s')
    (hadvances : Advances p p' s') : Underway p' s' id := by
  rcases h with hflow | ⟨task, htask, rfl⟩
  · exact .inl (hgrows.recorded_ne_none hflow)
  · exact (hadvances task htask).imp_right fun ⟨task', htask', hid, _⟩ =>
      ⟨task', htask', hid⟩

/-- The declaration or assignment that made a copy. -/
inductive Copied (X : Setting) (p : Progress X) (s : State) : Lifetime → Lifetime → Prop
  | declared {task : Task X} {path : Path} {field : Field} {initial : Extent}
      (hdeclaring : Declaring s task path field (some initial)) (hwork : Underway p s task.id) :
      Copied X p s (.first (path ++ field.path)) initial.value
  | assigned {task : Task X} {field : Field} {place new : Extent} {copy : Lifetime}
      (hassigning : Assigning s task field place new) (hslot : place.slot.isSlot = true)
      (hpath : copy.path = place.slot.path) (hwork : Underway p s task.id) : Copied X p s
      copy new.value

theorem Copied.later {copy origin : Lifetime} (h : Copied X p s copy origin) (hgrows : Grows s s')
    (hadvances : Advances p p' s') : Copied X p' s' copy origin := by
  cases h with
  | declared hdeclaring hwork =>
      exact .declared (hdeclaring.later hgrows) (hwork.later hgrows hadvances)
  | assigned hassigning hslot hpath hwork =>
    exact .assigned (hassigning.later hgrows) hslot hpath (hwork.later hgrows hadvances)

/-- Why a lifetime has come to hold another since the first state, where `sources` gives the source
of each copy. -/
inductive Reason (X : Setting) (base : State) (joins : List Lifetime) (s : State)
    (sources : Lifetime → Option Lifetime) : Lifetime → Lifetime → Prop
  /-- A copy holds its source. -/
  | source {copy origin : Lifetime} (h : sources copy = some origin) :
      Reason X base joins s sources copy origin
  /-- The source of a copy holds it. -/
  | copy {copy origin : Lifetime} (h : sources copy = some origin) :
      Reason X base joins s sources origin copy
  /-- A slot holds the data behind its variable. -/
  | version (data : Lifetime) (horigin : data.origin = .localValue) :
      Reason X base joins s sources (.root data.path .localSlot) data
  /-- Where executions meet, the version holds those that meet. -/
  | operand {join data : Lifetime} (hjoin : join ∈ joins)
      (hlate : base.context.nextVersion ≤ join.version) (hpath : data.path = join.path)
      (horigin : data.origin = .localValue) : Reason X base joins s sources join data
  | stored {task : Task X} {container data : Lifetime} (hlate : base.flowAt task.id = none)
      (h : Stores s task container data) : Reason X base joins s sources container data
  /-- Data is assigned to storage behind a reference. -/
  | through {task : Task X} {field : Field} {place new : Extent}
      (hassigning : Assigning s task field place new)
      (hslot : place.slot.isSlot = false) : Reason X base joins s sources place.value new.value
  | returned {data : Lifetime} : Reason X base joins s sources .heap data

theorem Reason.later {joins joins' : List Lifetime} {sources' : Lifetime → Option Lifetime}
    (h : Reason X base joins s sources c x) (hgrows : Grows s s') (hjoins : joins ⊆ joins')
    (hsources : ∀ copy origin, sources copy = some origin → sources' copy = some origin) :
    Reason X base joins' s' sources' c x := by
  cases h with
  | source h => exact .source (hsources _ _ h)
  | copy h => exact .copy (hsources _ _ h)
  | version _ horigin => exact .version _ horigin
  | operand hjoin hlate hpath horigin => exact .operand (hjoins hjoin) hlate hpath horigin
  | stored hlate h => exact .stored hlate (h.later hgrows)
  | through hassigning hslot => exact .through (hassigning.later hgrows) hslot
  | returned => exact .returned

/-! ## Lineages -/

/-- All that was stored since the first state has a reason. -/
structure Lineage (X : Setting) (base : State) (p : Progress X) (s : State)
    (sources : Lifetime → Option Lifetime) : Prop where
  grows : Grows base s
  /-- Copies are versions of variables, and none of those that were made where executions meet. -/
  copies : ∀ copy origin, sources copy = some origin → copy.role = .alias ∧
    copy.origin = .localValue ∧ copy ∉ p.joins ∧
    ¬ Occurs base.context.graph copy ∧ s.context.graph.Holds copy origin
  made : ∀ copy origin, sources copy = some origin → Copied X p s copy origin
  edges : ∀ c x, s.context.graph.Holds c x → base.context.graph.Holds c x ∨
    Reason X base p.joins s sources c x

/-- The storings that come with a version of a variable which stands for the data. -/
theorem holds_of_copied {G : Outlives} {data slot : Lifetime} {ty? : Option Ty}
    (hx : ((G.unify version data).store version slot ty?).Holds c x) : G.Holds c x ∨
      c = slot ∧ x = version ∨ Outlives.Relevant version data ∧
      (c = version ∧ x = data ∨ c = data ∧ x = version) := by
  rcases Outlives.holds_store_iff.1 hx with ⟨hc, hx, -⟩ | hx
  · exact .inr (.inl ⟨hc, hx⟩)
  · rcases Outlives.holds_unify_iff.1 hx with ⟨hends, hrelevant⟩ | hold
    · exact .inr (.inr ⟨hrelevant, hends.symm⟩)
    · exact .inl hold

theorem holds_of_entering {extent : Extent} {frame : Frame}
    (hx : (s.entering path extent frame).context.graph.Holds c x) : s.context.graph.Holds c x ∨
      c = extent.slot ∧ x = s.nextVersionOf path ∨
      c = s.nextVersionOf path ∧ x = extent.value := by
  rcases Outlives.holds_store_iff.1 hx with ⟨hc, hx, -⟩ | hx
  · exact .inr (.inl ⟨hc, hx⟩)
  · rcases Outlives.holds_store_iff.1 hx with ⟨hc, hx, -⟩ | hold
    · exact .inr (.inr ⟨hc, hx⟩)
    · exact .inl hold

theorem holds_of_joining {positive negative : PathMap Extent} {before : Extent} {frame : Frame}
    (hx : (s.joining path positive negative before frame).context.graph.Holds c x) :
    s.context.graph.Holds c x ∨ c = before.slot ∧ x = s.nextVersionOf path ∨
      c = s.nextVersionOf path ∧ x.isNone = false ∧
      (x = (positive[path]?.getD before).value ∨ x = (negative[path]?.getD before).value) := by
  rcases Outlives.holds_store_iff.1 hx with ⟨hc, hx, -⟩ | hx
  · exact .inr (.inl ⟨hc, hx⟩)
  · rcases Outlives.holds_store_iff.1 hx with ⟨hc, hx, hrelevant⟩ | hx
    · exact .inr (.inr ⟨hc, hx ▸ hrelevant.2.1, .inr hx⟩)
    · rcases Outlives.holds_store_iff.1 hx with ⟨hc, hx, hrelevant⟩ | hold
      · exact .inr (.inr ⟨hc, hx ▸ hrelevant.2.1, .inl hx⟩)
      · exact .inl hold

namespace Lineage

theorem start (p : Progress X) (base : State) : Lineage X base p base fun _ => none where
  grows := Grows.refl base
  copies := by simp
  made := by simp
  edges _ _ hx := .inl hx

section

variable (h : Lineage X base p s sources)

include h

/-- Storings are added that have a reason. -/
theorem later (hgrows : Grows s s') (hadvances : Advances p p' s') (hjoins : p'.joins = p.joins)
    (hedges : ∀ c x, s'.context.graph.Holds c x → s.context.graph.Holds c x ∨
      Reason X base p.joins s' sources c x) : Lineage X base p' s' sources where
  grows := h.grows.trans hgrows
  copies copy origin hcopy := by
    obtain ⟨hrole, horigin, hjoin, hnew, hholds⟩ := h.copies copy origin hcopy
    exact ⟨hrole, horigin, hjoins ▸ hjoin, hnew, hgrows.graph _ _ hholds⟩
  made copy origin hcopy := (h.made copy origin hcopy).later hgrows hadvances
  edges c x hx := by
    rw [hjoins]
    rcases hedges c x hx with hold | hreason
    · exact (h.edges c x hold).imp_right (·.later hgrows (List.Subset.refl _) fun _ _ h => h)
    · exact .inr hreason

theorem of_graph_eq (hgrows : Grows s s') (hadvances : Advances p p' s')
    (hjoins : p'.joins = p.joins) (hgraph : s'.context.graph = s.context.graph) :
    Lineage X base p' s' sources :=
  h.later hgrows hadvances hjoins fun _ _ hx => .inl (hgraph ▸ hx)

theorem store {stored container : Lifetime} {ty? : Option Ty}
    (hgraph : s'.context.graph = s.context.graph.store stored container ty?) (hgrows : Grows s s')
    (hadvances : Advances p p' s') (hjoins : p'.joins = p.joins)
    (hreason : Reason X base p.joins s' sources container stored) :
    Lineage X base p' s' sources := by
  refine h.later hgrows hadvances hjoins fun c x hx => ?_
  rw [hgraph] at hx
  rcases Outlives.holds_store_iff.1 hx with ⟨rfl, rfl, -⟩ | hold
  · exact .inr hreason
  · exact .inl hold

/-- A new version is not in the graph that was known. -/
theorem not_occurs (hfresh : ¬ Occurs s.context.graph version) :
    ¬ Occurs base.context.graph version := by
  rintro ⟨k, hk⟩
  exact hfresh ⟨k, hk.imp (h.grows.graph _ _) (h.grows.graph _ _)⟩

/-- A variable gets a new version that is a copy of the data. -/
theorem copied (hgrows : Grows s s') (hadvances : Advances p p' s') (hjoins : p'.joins = p.joins)
    (version data slot : Lifetime) (ty? : Option Ty) (hmade : Copied X p' s' version data)
    (hgraph : s'.context.graph = (s.context.graph.unify version data).store version slot ty?)
    (hslot : slot = .root version.path .localSlot) (hfresh : ¬ Occurs s.context.graph version)
    (hrole : version.role = .alias) (horigin : version.origin = .localValue)
    (hjoin : version ∉ p.joins) : ∃ sources', Lineage X base p' s' sources' := by
  have hedges : ∀ c x, s'.context.graph.Holds c x → s.context.graph.Holds c x ∨
      c = .root version.path .localSlot ∧ x = version ∨
      Outlives.Relevant version data ∧
      (c = version ∧ x = data ∨ c = data ∧ x = version) := by
    intro c x hx
    rw [hgraph, hslot] at hx
    exact holds_of_copied hx
  by_cases hrelevant : Outlives.Relevant version data
  · -- The source of the new version is settled now, and those of older copies stay.
    have hnew : sources version = none := by
      by_contra hsome
      obtain ⟨origin, hcopy⟩ := Option.ne_none_iff_exists'.1 hsome
      obtain ⟨-, -, -, -, hholds⟩ := h.copies _ _ hcopy
      exact hfresh ⟨origin, .inl hholds⟩
    have hsources : ∀ copy origin, sources copy = some origin →
        Function.update sources version (some data) copy = some origin := by
      intro copy origin hcopy
      rw [Function.update_of_ne]
      · exact hcopy
      · rintro rfl
        simp [hnew] at hcopy
    have hself : Function.update sources version (some data) version = some data :=
      Function.update_self ..
    refine ⟨Function.update sources version (some data), h.grows.trans hgrows, ?_, ?_, ?_⟩
    · intro copy origin hcopy
      rw [hjoins]
      by_cases heq : copy = version
      · subst heq
        cases hself.symm.trans hcopy
        refine ⟨hrole, horigin, hjoin, h.not_occurs hfresh, ?_⟩
        rw [hgraph]
        exact Outlives.below_store _ _ _ _ _ _ (Outlives.unified_unify _ _ _ hrelevant).1
      · rw [Function.update_of_ne heq] at hcopy
        obtain ⟨hrole, horigin, hjoin, hnew, hholds⟩ := h.copies copy origin hcopy
        exact ⟨hrole, horigin, hjoin, hnew, hgrows.graph _ _ hholds⟩
    · intro copy origin hcopy
      by_cases heq : copy = version
      · subst heq
        cases hself.symm.trans hcopy
        exact hmade
      · rw [Function.update_of_ne heq] at hcopy
        exact (h.made copy origin hcopy).later hgrows hadvances
    · intro c x hx
      rw [hjoins]
      rcases hedges c x hx with hold | ⟨rfl, rfl⟩ | ⟨-, ⟨rfl, rfl⟩ | ⟨rfl, rfl⟩⟩
      · exact (h.edges c x hold).imp_right (·.later hgrows (List.Subset.refl _) hsources)
      · exact .inr (.version _ horigin)
      · exact .inr (.source hself)
      · exact .inr (.copy hself)
  · refine ⟨sources, h.later hgrows hadvances hjoins fun c x hx => ?_⟩
    rcases hedges c x hx with hold | ⟨rfl, rfl⟩ | ⟨hrelevant', -⟩
    · exact .inl hold
    · exact .inr (.version _ horigin)
    · exact absurd hrelevant' hrelevant

/-- A variable gets a new version that holds those that meet. -/
theorem met (hgrows : Grows s s') (hadvances : Advances p p' s')
    (hjoins : p'.joins = p.joins ++ [version]) (hfresh : ¬ Occurs s.context.graph version)
    (horigin : version.origin = .localValue) (hversion : version.version = s.context.nextVersion)
    (hedges : ∀ c x, s'.context.graph.Holds c x → s.context.graph.Holds c x ∨
      c = .root version.path .localSlot ∧ x = version ∨
      c = version ∧ x.path = version.path ∧ x.origin = .localValue) :
    Lineage X base p' s' sources where
  grows := h.grows.trans hgrows
  copies copy origin hcopy := by
    obtain ⟨hrole, horigin, hjoin, hnew, hholds⟩ := h.copies copy origin hcopy
    refine ⟨hrole, horigin, ?_, hnew, hgrows.graph _ _ hholds⟩
    rw [hjoins, List.mem_append, List.mem_singleton]
    rintro (hold | rfl)
    · exact hjoin hold
    · exact hfresh ⟨origin, .inl hholds⟩
  made copy origin hcopy := (h.made copy origin hcopy).later hgrows hadvances
  edges c x hx := by
    rw [hjoins]
    rcases hedges c x hx with hold | ⟨rfl, rfl⟩ | ⟨rfl, hpath, horigin'⟩
    · exact (h.edges c x hold).imp_right
        (·.later hgrows (List.subset_append_left _ _) fun _ _ h => h)
    · exact .inr (.version _ horigin)
    · exact .inr (.operand (by simp) (hversion ▸ h.grows.nextVersion) hpath horigin')

end

end Lineage

/-! ## Transitions -/

/-- The version that comes next is none of a join. -/
theorem Numbered.next_not_mem_joins (h : Numbered p s) (path : Path) :
    s.nextVersionOf path ∉ p.joins :=
  fun hmem => absurd (h.joins _ hmem).lt (Nat.lt_irrefl _)

/-- Lifetimes of a function are not known before it begins. -/
theorem Unrelated.not_occurs (h : Unrelated path context)
    (hpath : x.path.startsWith path = true) (hsome : x.isNone = false) (hheap : x ≠ .heap) :
    ¬ Occurs context.graph x := by
  have hknown : ¬ Twins.Known (fun other => other.Apart path) x := by
    rintro (hnone | ⟨hapart, -⟩)
    · simp [hsome] at hnone
    · simp [hapart.1] at hpath
  rintro ⟨k, hk | hk⟩
  · exact (h.graph _ _ hk).2.1.elim hknown hheap
  · exact hknown (h.graph _ _ hk).2.2

/-! ## Orderly states -/

/-- What every state of a function keeps to. -/
structure Orderly (context : Context) (p : Progress X) (s : State) : Prop where
  coherent : Coherent s
  numbered : Numbered p s
  fresh : Abides (fresh X.env context) p s
  offHeap : Abides (offHeap X.env context.rebound.length) p s
  pending : p.Fresh s

theorem orderly_start {program : Program} {decls : Declarations} {options : Options} {owner : Owner}
    (h : Precedes program decls options context owner) (size : Nat) :
    Orderly (X := X) context ⟨none, []⟩ (.start context size) where
  coherent := coherent_start context size
  numbered := numbered_start h size
  fresh := .of_inv rfl (inv_start_fresh (dated_of_precedes h).1 (dated_of_precedes h).2)
  offHeap := .of_inv rfl (Discipline.inv_start rfl (Nat.zero_le _) (keepsOffHeap_of_precedes h))
  pending := Progress.fresh_of_task_eq_none rfl

theorem lasts_orderly : Lasts X (fun _ _ => True) (Orderly context) := by
  have hfresh : Lasts X _ (Abides (fresh X.env context)) :=
    lasts_abides names_fresh.1 (names_fresh.2 _)
  have hoff : Lasts X _ (Abides (offHeap X.env context.rebound.length)) :=
    lasts_abides (names_offHeap _).1 ((names_offHeap _).2 _)
  have hlasts := (lasts_coherent.and lasts_numbered).and ((hfresh.and
    ((hoff.weaken fun _ => trivial).and lasts_fresh)).weaken fun _ => trivial)
  convert hlasts using 3
  exact ⟨fun h => ⟨⟨h.coherent, h.numbered⟩, h.fresh, h.offHeap, h.pending⟩,
    fun h => ⟨h.1.1, h.1.2, h.2.1, h.2.2.1, h.2.2.2⟩⟩

section Transitions

variable {function : Function} (hsound : X.Sound function)
  (hunrelated : Unrelated X.env.scope context)

theorem Orderly.not_occurs_next (hs : Orderly context p s) (path : Path) :
    ¬ Occurs s.context.graph (s.nextVersionOf path) :=
  not_occurs_nextVersionOf hs.numbered.pos hs.fresh.inv.dated path

theorem Joining.lineage {s₀ : State} {positive negative : PathMap Extent} {before : Extent}
    {frame : Frame} (hjoining : Joining s₀ s path positive negative before frame)
    (htask : p.task = none) (hs : Orderly context p s) (hlineage : Lineage X base p s sources) :
    Lineage X base ⟨none, p.joins ++ [s.nextVersionOf path]⟩
      (s.joining path positive negative before frame) sources := by
  have hanchored := hs.coherent.bindings.lookup hjoining.lookup
  -- Either side has a version of the variable, be it the one from before the branches.
  have hside : ∀ (changes : PathMap Extent) (data : Lifetime),
      (∀ extent, changes[path]? = some extent → Logged s₀ s path extent.value) →
      data = (changes[path]?.getD before).value → data.isNone = false →
      data.path = path ∧ data.origin = .localValue := by
    rintro changes data hchanges rfl hsome
    cases hget : changes[path]? with
    | none =>
      rw [hget] at hsome
      refine hanchored.value.resolve_left fun hnone => ?_
      simp [hnone, Lifetime.isNone, Lifetime.none] at hsome
    | some extent =>
      have hmem := List.mem_of_mem_drop (hchanges extent hget)
      exact ⟨hs.numbered.named _ hmem, (hs.numbered.logged _ hmem).origin⟩
  refine hlineage.met hjoining.grows (advances_of_task_eq_none htask) rfl
    (hs.not_occurs_next path) rfl rfl fun c x hx => ?_
  rcases holds_of_joining hx with hold | ⟨rfl, rfl⟩ | ⟨rfl, hsome, hx | hx⟩
  · exact .inl hold
  · exact .inr (.inl ⟨hanchored.slot, rfl⟩)
  · exact .inr (.inr ⟨rfl, hside positive x hjoining.loggedPositive hx hsome⟩)
  · exact .inr (.inr ⟨rfl, hside negative x hjoining.loggedNegative hx hsome⟩)

include hsound hunrelated

theorem Orderly.not_occurs_first {joins : List Lifetime}
    (hs : Orderly context ⟨some task, joins⟩ s) {initial? : Option Extent}
    (hdeclaring : Declaring s task path field initial?) :
    ¬ Occurs s.context.graph (.first (path ++ field.path)) := by
  have hdistinct : ∀ id node, X.env.node id = .ok node → X.env.declarations.Distinct node.ty :=
    fun id node hnode => hsound.legible.distinct id node (env_node_eq_ok_iff.1 hnode)
  have hpath : (path ++ field.path).startsWith X.env.scope = true := by
    obtain ⟨value, -, -, -, hexpr, -⟩ := hdeclaring.operands
    rw [hsound.scope]
    exact Path.startsWith_append
      (hsound.inside.declared _ _ _ _ (env_node_eq_ok_iff.1 task.found) hexpr) _
  exact hs.fresh.inv.not_occurs_first (hs.pending _ rfl hsound.acyclic) hsound.sited hdistinct
    hdeclaring (hunrelated.not_occurs hpath rfl (by simp [Lifetime.first, Lifetime.heap]))

theorem Step.lineage (h : Step X p s p' s') (hs : Orderly context p s)
    (hlineage : Lineage X base p s sources) : ∃ sources', Lineage X base p' s' sources' := by
  have hgrows := h.grows
  have hadvances := h.advances
  cases h with
  | begin | note | region | expose | plain | skip | record =>
    exact ⟨sources, hlineage.of_graph_eq hgrows hadvances rfl rfl⟩
  | @store task _ _ _ _ ty? hstores =>
    have hlate : base.flowAt task.id = none := by
      by_contra hdone
      exact hlineage.grows.recorded_ne_none hdone (hs.pending task rfl hsound.acyclic)
    exact ⟨sources,
      hlineage.store rfl hgrows hadvances rfl (.stored hlate (hstores.later hgrows))⟩
  | through ty? hassigning hslot =>
    exact ⟨sources,
      hlineage.store rfl hgrows hadvances rfl (.through (hassigning.later hgrows) hslot)⟩
  | returned => exact ⟨sources, hlineage.store rfl hgrows hadvances rfl .returned⟩
  | @declared task joins s path field initial hdeclaring =>
    refine hlineage.copied hgrows hadvances rfl (.first (path ++ field.path)) initial.value _
      field.ty (.declared (hdeclaring.later hgrows) (.inr ⟨_, rfl, rfl⟩)) rfl rfl
      (hs.not_occurs_first hsound hunrelated hdeclaring) rfl rfl fun hmem => ?_
    exact absurd (hs.numbered.joins _ hmem).pos (Nat.lt_irrefl _)
  | @rebound task joins s field place new frame hassigning hslot
  | @hidden task joins s field place new hassigning hslot =>
    have hrooted := (hassigning.rooted hs.coherent hslot).1
    exact hlineage.copied hgrows hadvances rfl (s.nextVersionOf place.slot.path) new.value
      place.slot field.ty
      (.assigned (hassigning.later hgrows) hslot rfl (.inr ⟨_, rfl, rfl⟩)) rfl hrooted
      (hs.not_occurs_next _) rfl rfl (hs.numbered.next_not_mem_joins _)
  | parameter hparameter hfields hfield hrun =>
    obtain ⟨-, -, hedges⟩ := context_declareParameterMember hrun
    refine ⟨sources, hlineage.later hgrows hadvances rfl fun c x hx =>
      (hedges c x hx).imp_right ?_⟩
    rintro ⟨rfl, rfl⟩
    exact .version (.root _ .localValue) rfl
  | entered _ _ _ _ hlookup hsome =>
    have hanchored := hs.coherent.bindings.lookup hlookup
    refine ⟨sources, hlineage.met hgrows hadvances rfl (hs.not_occurs_next _) rfl rfl
      fun c x hx => ?_⟩
    rcases holds_of_entering hx with hold | ⟨rfl, rfl⟩ | ⟨rfl, rfl⟩
    · exact .inl hold
    · exact .inr (.inl ⟨hanchored.slot, rfl⟩)
    · obtain ⟨hpath, horigin⟩ := hanchored.value.resolve_left fun hnone => by
        simp [hnone, Lifetime.isNone, Lifetime.none] at hsome
      exact .inr (.inr ⟨rfl, hpath, horigin⟩)

theorem lasts_lineage (base : State) :
    Lasts X (Orderly context) fun p s => ∃ sources, Lineage X base p s sources where
  step := by
    rintro p p' s s' hstep hs ⟨sources, hlineage⟩
    exact hstep.lineage hsound hunrelated hs hlineage
  enter _ _ hs := hs.imp fun _ hs => hs.of_graph_eq (Grows.frame _ _) (advances_refl _ _) rfl rfl
  leave _ _ _ _ _ hs :=
    hs.imp fun _ hs => hs.of_graph_eq (Grows.frame _ _) (advances_refl _ _) rfl rfl
  join htask hjoining hs _ := .imp fun _ hlineage => hjoining.lineage htask hs hlineage
  flowBack := by
    rintro p₀ p s₀ s entry version ty? - hentry hentered hversion hs ⟨_, hlineage₀⟩
      ⟨sources, hlineage⟩
    have hmem := List.mem_of_mem_drop hversion
    exact ⟨sources, hlineage.store rfl (grows_store _ _ _) (advances_refl _ _) rfl
      (.operand hentry (hlineage₀.grows.nextVersion.trans hentered.2) (hs.numbered.named _ hmem)
        (hs.numbered.logged _ hmem).origin)⟩

end Transitions

section Points

variable {program : Program} {decls : Declarations} {options : Options} {owner : Owner}
  {function : Function}
  (hsound : (Setting.ofOwner decls options owner function).Sound function)
  (hprecedes : Precedes program decls options context owner)
  (hunrelated : Unrelated function.path context)

include hsound hprecedes hunrelated

/-- In every state of a function, what was stored since it began has a reason. -/
theorem Inside.lineage_start {p : Progress (.ofOwner decls options owner function)}
    (h : Inside (.ofOwner decls options owner function) ⟨none, []⟩
      (.start context owner.nodes.size) p s) :
    ∃ sources : Lifetime → Option Lifetime, Coherent s ∧ Numbered p s ∧
      Outlined (.ofOwner decls options owner function) s ∧
      Lineage (.ofOwner decls options owner function) (.start context owner.nodes.size) p s
        sources := by
  have hstart := orderly_start (X := .ofOwner decls options owner function) hprecedes
    owner.nodes.size
  obtain ⟨hs, sources, hlineage⟩ :=
    (lasts_orderly.and (lasts_lineage hsound hunrelated _)).inside h ⟨hstart, _, .start _ _⟩
  exact ⟨sources, hs.coherent, hs.numbered,
    h.outlined hsound hstart.coherent (by simp [flowAt_start]), hlineage⟩

/-- At every point of a function, what was stored since it began has a reason. -/
theorem Point.lineage (h : Point (.ofFunction decls options owner function) function context s) :
    ∃ (p : Progress (.ofOwner decls options owner function)) (sources : Lifetime →
      Option Lifetime), Coherent s ∧ Numbered p s ∧
      Outlined (.ofOwner decls options owner function) s ∧
      Lineage (.ofOwner decls options owner function) (.start context owner.nodes.size) p s
        sources := by
  obtain ⟨p, hinside⟩ := h.inside
  exact ⟨p, hinside.lineage_start hsound hprecedes hunrelated⟩

end Points

/-! ## What is held -/

/-- What is read or written through a reference. -/
inductive Leaf (env : Env) : Lifetime → Prop
  | read (kind : String) (id : NodeId) (field : Field) : Leaf env (env.readAt kind id field)
  | written (kind : String) (id : NodeId) (field : Field) : Leaf env (env.writtenAt kind id field)

theorem Leaf.origin {env : Env} (h : Leaf env x) : x.origin = .temporary := by
  cases h <;> rfl

theorem Leaf.startsWith {env : Env} (h : Leaf env x) : x.path.startsWith env.scope = true := by
  cases h <;> exact startsWith_tempPath _ _ _

/-- No call has two arguments that carry references. -/
def Setting.Unmixed (X : Setting) : Prop :=
  ∀ id node callee arguments, X.visits .value id → X.env.node id = .ok node →
    node.expr = .call callee arguments →
    ∀ (i j : Nat) (a b : Node) (ida idb : NodeId), i ≠ j →
      arguments[i]? = some ida → arguments[j]? = some idb → X.env.node ida = .ok a →
      X.env.node idb = .ok b →
      X.env.tracked a.ty = .ok true → X.env.tracked b.ty = .ok true → False

theorem unmixed_of_arguments {decls : Declarations} {options : Options} {owner : Owner}
    {function : Function} {depth : Nat} {ids : List NodeId}
    (hwalk : owner.walkFrom depth function.body = .ok ids)
    (harguments : ∀ id ∈ ids, ∀ node callee arguments, owner.nodes.get? id = some node →
      node.expr = .call callee arguments →
      arguments.Pairwise fun a b => ¬ (owner.Refers decls a ∧ owner.Refers decls b)) :
    (Setting.ofOwner decls options owner function).Unmixed := by
  intro id node callee arguments hvisits hnode hexpr i j a b ida idb hne hi hj ha hb hta htb
  have hpairwise := harguments id (mem_walk_of_traverses hvisits hwalk) node callee arguments
    (env_node_eq_ok_iff.1 hnode) hexpr
  have hrefers : owner.Refers decls ida := ⟨a, env_node_eq_ok_iff.1 ha, hta⟩
  have hrefers' : owner.Refers decls idb := ⟨b, env_node_eq_ok_iff.1 hb, htb⟩
  obtain ⟨hi', rfl⟩ := List.getElem?_eq_some_iff.1 hi
  obtain ⟨hj', rfl⟩ := List.getElem?_eq_some_iff.1 hj
  rw [List.pairwise_iff_getElem] at hpairwise
  rcases Nat.lt_or_gt_of_ne hne with hlt | hlt
  · exact hpairwise i j hi' hj' hlt ⟨hrefers, hrefers'⟩
  · exact hpairwise j i hj' hi' hlt ⟨hrefers', hrefers⟩

/-- What a node stores is what it reads or writes through a reference, or the node gathers data, or
is a call. -/
theorem Stores.made_or_gathered (h : Stores s task c x) :
    (Leaf X.env x ∧ MadeBy X.env task.id x) ∨ (c.role = .temp ∧ c.origin = .temporary) ∨
    c.origin = .heap ∨ ∃ callee arguments, task.node.expr = .call callee arguments := by
  cases h with
  | read => exact .inl ⟨.read _ _ _, .inl rfl, _, _, rfl⟩
  | written => exact .inl ⟨.written _ _ _, .inl rfl, _, _, rfl⟩
  | inserted => exact .inr (.inl ⟨rfl, rfl⟩)
  | initialized => exact .inr (.inr (.inl rfl))
  | joined => exact .inr (.inl ⟨rfl, rfl⟩)
  | mixed hposition hexpr => exact .inr (.inr (.inr ⟨_, _, hexpr⟩))

section Held

variable {function : Function} (hsound : X.Sound function) (hunmixed : X.Unmixed)
  (houtlined : Outlined X s)

include hsound hunmixed houtlined

/-- Where no two arguments carry references, calls store nothing. -/
theorem Stores.not_call (h : Stores s task c x) {callee : Path}
    {arguments : List NodeId} (hcall : task.node.expr = .call callee arguments) : False := by
  have hpointer : ∀ {kind : String} {pointer : Extent}, ¬ Pointer s task.node.expr
      kind pointer := by
    rw [hcall]
    rintro kind pointer ⟨⟩
  cases h with
  | read _ h => exact hpointer h
  | written _ h => exact hpointer h
  | inserted _ hexpr | initialized _ hexpr | joined _ hexpr => cases hcall.symm.trans hexpr
  | @mixed callee arguments i j stored container storedFlow containerFlow ty value holder
      hposition hexpr hne
      hstored hcontainer hstoredFlow hcontainerFlow hty htracked hvalue hholder hstoredTy =>
    -- The stored argument has data, so that its type carries references as that of the other does.
    have huses := hsound.closed _ _ _ task.visited task.found
    rw [hposition, hexpr] at huses
    have hvisits : ∀ {k : Nat} {argument : NodeId}, arguments[k]? = some argument →
        X.visits .value argument := fun {k argument} hget =>
      huses (.value, argument) (by simpa [Expr.uses, Expr.children] using List.mem_of_getElem? hget)
    obtain ⟨containerNode, hcontainerNode, hcontainerTy⟩ := except_bind_eq_ok hty
    cases hcontainerTy
    obtain ⟨storedTy, b, hstoredTy, hb⟩ := hstoredTy
    obtain ⟨storedNode, hstoredNode, hstoredTy⟩ := except_bind_eq_ok hstoredTy
    cases hstoredTy
    cases b with
    | true =>
      exact hunmixed task.id task.node callee arguments (hposition ▸ task.visited)
        task.found hexpr i j
        storedNode containerNode stored container hne hstored hcontainer hstoredNode
          hcontainerNode hb
        htracked
    | false =>
      rw [houtlined.tracked_eq_nil hstoredFlow (hvisits hstored) hstoredNode hb] at hvalue
      cases hvalue

/-- Data is stored by literals, joined values and in heap memory; other storings are of what is read
or written through references. -/
theorem Stores.leaf_or_made (h : Stores s task c x) :
    Leaf X.env x ∨ (c.role = .temp ∧ c.origin = .temporary) ∨ c.origin = .heap := by
  rcases h.made_or_gathered with ⟨hleaf, -⟩ | htemp | hheap | ⟨callee, arguments, hcall⟩
  · exact .inl hleaf
  · exact .inr (.inl htemp)
  · exact .inr (.inr hheap)
  · exact (h.not_call hsound hunmixed houtlined hcall).elim

/-- What is held by a lifetime that neither gathers data nor stands where executions meet: its
source, its copies, and what is read or written through references to it. -/
theorem Lineage.held (hs : Lineage X base p s sources) (hnew : ¬ Occurs base.context.graph c)
    (hrole : c.role ≠ .temp) (horigin : c.origin ≠ .heap) (hslot : c.isSlot = false)
    (hjoin : c ∉ p.joins)
    (hthrough : ∀ (task : Task X) field place new, Assigning s task field place new →
      place.slot.isSlot = false → c ≠ place.value) (hx : s.context.graph.Holds c x) :
    sources c = some x ∨ sources x = some c ∨ Leaf X.env x := by
  cases (hs.edges c x hx).resolve_left fun hknown => hnew ⟨x, .inl hknown⟩ with
  | source h => exact .inl h
  | copy h => exact .inr (.inl h)
  | version => cases hslot
  | operand hmem => exact absurd hmem hjoin
  | stored _ h =>
    rcases h.leaf_or_made hsound hunmixed houtlined with hleaf | htemp | hheap
    · exact .inr (.inr hleaf)
    · exact absurd htemp.1 hrole
    · exact absurd hheap horigin
  | through hassigning hplace => exact absurd rfl (hthrough _ _ _ _ hassigning hplace)
  | returned => exact absurd rfl horigin

end Held

end Flow
end Regions
