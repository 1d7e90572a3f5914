import Regions.Proofs.Freshness
import Regions.Proofs.Modularity
import Regions.Proofs.Trees

/-!
# Where lifetimes come from

Versions are counted, the first version of a variable is made by its declaration, and an
intermediate value by its node. So what a declaration makes is new to the graph of storings.

* `Numbered`: the versions that were adopted, and those of joins, are counted;
* `Discipline.Inv.not_occurs_first`: the first version of a variable is new when the variable is
  declared.
-/

namespace Regions.Flow

variable {X : Setting} {p p' : Progress X} {s s' : State} {path m : Path} {l c x : Lifetime}
  {field : Field} {id : NodeId} {kind : String} {joins : List Lifetime} {program : Program}
  {decls : Declarations} {options : Options} {owner : Owner} {context : Context} {task : Task X}
  {initial? : Option Extent}

/-! ## Versions -/

/-- The lifetime is a version of a variable that was given out before. -/
structure Counted (next : Nat) (l : Lifetime) : Prop where
  role : l.role = .alias
  origin : l.origin = .localValue
  pos : 0 < l.version
  lt : l.version < next

theorem Counted.mono {next next' : Nat} (h : Counted next l) (hle : next ≤ next') :
    Counted next' l :=
  { h with lt := Nat.lt_of_lt_of_le h.lt hle }

/-- The versions that were adopted and those of joins were given out before. -/
structure Numbered (p : Progress X) (s : State) : Prop where
  pos : 0 < s.context.nextVersion
  logged : ∀ entry ∈ s.context.rebound, Counted s.context.nextVersion entry.2
  named : ∀ entry ∈ s.context.rebound, entry.2.path = entry.1
  joins : ∀ l ∈ p.joins, Counted s.context.nextVersion l

namespace Numbered

theorem counted_next (h : Numbered p s) (path : Path) :
    Counted (s.context.nextVersion + 1) (s.nextVersionOf path) where
  role := rfl
  origin := rfl
  pos := h.pos
  lt := Nat.lt_succ_self _

theorem of_eq (h : Numbered p s) (hversion : s'.context.nextVersion = s.context.nextVersion)
    (hrebound : s'.context.rebound = s.context.rebound) (hjoins : p'.joins = p.joins) :
    Numbered p' s' where
  pos := hversion ▸ h.pos
  logged := by
    rw [hversion, hrebound]
    exact h.logged
  named := by
    rw [hrebound]
    exact h.named
  joins := by
    rw [hversion, hjoins]
    exact h.joins

/-- A version is made, and the frame may adopt it. -/
theorem next (h : Numbered p s) (hversion : s'.context.nextVersion = s.context.nextVersion + 1)
    (hrebound : ∀ entry ∈ s'.context.rebound, entry ∈ s.context.rebound ∨
      ∃ path, entry = (path, s.nextVersionOf path))
    (hjoins : ∀ l ∈ p'.joins, l ∈ p.joins ∨ ∃ path, l = s.nextVersionOf path) :
    Numbered p' s' where
  pos := hversion ▸ Nat.succ_pos _
  logged entry hentry := by
    rw [hversion]
    rcases hrebound entry hentry with hold | ⟨path, rfl⟩
    · exact (h.logged entry hold).mono (Nat.le_succ _)
    · exact h.counted_next path
  named entry hentry := by
    rcases hrebound entry hentry with hold | ⟨path, rfl⟩
    · exact h.named entry hold
    · rfl
  joins l hl := by
    rw [hversion]
    rcases hjoins l hl with hold | ⟨path, rfl⟩
    · exact (h.joins l hold).mono (Nat.le_succ _)
    · exact h.counted_next path

theorem adopted (h : Numbered p s) (path : Path) (graph : Outlives) (frame : Frame)
    (hjoins : ∀ l ∈ p'.joins, l ∈ p.joins ∨ l = s.nextVersionOf path) :
    Numbered p' (s.adopted path graph frame) := by
  refine h.next rfl (fun entry hentry => ?_) fun l hl =>
    (hjoins l hl).imp_right fun heq => ⟨path, heq⟩
  rcases List.mem_append.1 hentry with hold | hnew
  · exact .inl hold
  · exact .inr ⟨path, List.mem_singleton.1 hnew⟩

end Numbered

/-- What declaring a member of a parameter stores, if anything. -/
theorem context_declareParameterMember (h : Runs (declareParameterMember path field) s () s') :
    s'.context.nextVersion = s.context.nextVersion ∧ s'.context.rebound = s.context.rebound ∧
      ∀ c x, s'.context.graph.Holds c x → s.context.graph.Holds c x ∨
        c = .root (path ++ field.path) .localSlot ∧ x = .root
        (path ++ field.path) .localValue := by
  obtain ⟨-, rfl⟩ | ⟨-, rfl⟩ := runs_declareParameterMember h
  · refine ⟨rfl, rfl, fun c x hx => ?_⟩
    rcases Outlives.holds_store_iff.1 hx with ⟨hc, hx, -⟩ | hold
    · exact .inr ⟨hc, hx⟩
    · exact .inl hold
  · exact ⟨rfl, rfl, fun c x hx => .inl hx⟩

theorem Step.numbered (h : Step X p s p' s') (hs : Numbered p s) : Numbered p' s' := by
  cases h with
  | begin | note | region | expose | store | declared | plain | through | skip
      | record | returned =>
    exact hs.of_eq rfl rfl rfl
  | rebound => exact hs.adopted _ _ _ fun l hl => .inl hl
  | hidden => exact hs.next rfl (fun _ hentry => .inl hentry) fun _ hl => .inl hl
  | parameter _ _ _ hrun =>
    obtain ⟨hversion, hrebound, -⟩ := context_declareParameterMember hrun
    exact hs.of_eq hversion hrebound rfl
  | entered => exact hs.adopted _ _ _ fun l hl => by simpa using hl

theorem lasts_numbered {K : Progress X → State → Prop} : Lasts X K Numbered where
  step hstep _ hs := hstep.numbered hs
  enter _ _ hs := hs.of_eq rfl rfl rfl
  leave _ _ _ _ _ hs := hs.of_eq rfl rfl rfl
  join _ _ _ _ hs := hs.adopted _ _ _ fun l hl => by simpa using hl
  flowBack _ _ _ _ _ _ _ hs := hs.of_eq rfl rfl rfl

/-! ## What is new -/

/-- Only one declaration comes to the path of a variable. -/
theorem Declaring.unique {function : Function} (hsited : X.env.owner.Sited function)
    (hdeclaring : Declaring s task path field initial?) {id : NodeId}
    {node : Node} {x : Path} {value : NodeId} (hnode : X.env.node id = .ok node)
    (hexpr : node.expr = .declaration x value) (hpath : path ++ field.path = x ++ m) :
    id = task.id ∧ field.path = m := by
  obtain ⟨value', -, -, -, hexpr', -⟩ := hdeclaring.operands
  have hbinds : ∀ {id node x value}, X.env.node id = .ok node →
    node.expr = .declaration x value →
      ∃ ty, Binds function.parameters X.env.owner.nodes x (some id) ty := by
    intro id node x value hnode hexpr
    have hnode := env_node_eq_ok_iff.1 hnode
    have hsited := hsited.nodes id node hnode
    rw [hexpr] at hsited
    obtain ⟨valueNode, hvalue⟩ := hsited
    exact ⟨_, .declaration hnode hexpr hvalue⟩
  obtain ⟨_, hbinds₁⟩ := hbinds task.found hexpr'
  obtain ⟨_, hbinds₂⟩ := hbinds hnode hexpr
  obtain ⟨rfl, hsite, -⟩ := hsited.apart hbinds₁ hbinds₂ hpath
  cases hsite
  exact ⟨rfl, Path.append_right_inj.1 hpath⟩

/-- The field that a declaration comes to next is none of those that are done. -/
theorem Declaring.not_mem_done (hdeclaring : Declaring s task path field initial?)
    (hdistinct : ∀ id node, X.env.node id = .ok node → X.env.declarations.Distinct node.ty) :
    field.path ∉ task.done := by
  obtain ⟨value, flow, ty, fields, -, -, hty, hfields, ⟨before, after, hsplit, hdone⟩, -⟩ :=
    hdeclaring.operands
  obtain ⟨members, hmembers, hpaths⟩ := Declarations.map_path_of_fields hfields
  obtain ⟨valueNode, hvalue, hty⟩ := except_bind_eq_ok hty
  cases hty
  have hnodup := Declarations.nodup_members (hdistinct value valueNode hvalue) hmembers
  rw [← hpaths, hsplit, List.map_append, List.map_cons, List.nodup_middle, List.nodup_cons]
    at hnodup
  rw [hdone]
  exact fun hm => hnodup.1 (List.mem_append_left _ hm)

/-- The first version of a variable is new to the graph when the variable is declared. -/
theorem Discipline.Inv.not_occurs_first
    (h : (fresh X.env context).Inv (some task.work) s) (hfresh : s.flowAt task.id = none)
    {function : Function} (hsited : X.env.owner.Sited function)
    (hdistinct : ∀ id node, X.env.node id = .ok node → X.env.declarations.Distinct node.ty)
    (hdeclaring : Declaring s task path field initial?)
    (hunknown : ¬ Occurs context.graph (.first (path ++ field.path))) :
    ¬ Occurs s.context.graph (.first (path ++ field.path)) := by
  intro hoccurs
  rcases (h.occurs hoccurs).first _ rfl
    with (⟨id, done, node, x, value, m, hwork, hnode, hexpr, hpath, hm⟩ |
    ⟨id, node, x, value, m, hid, hnode, hexpr, hpath⟩) | hknown
  · obtain ⟨rfl, rfl⟩ := hdeclaring.unique hsited hnode hexpr hpath
    cases hwork
    exact hdeclaring.not_mem_done hdistinct hm
  · obtain ⟨rfl, -⟩ := hdeclaring.unique hsited hnode hexpr hpath
    exact hid hfresh
  · exact hunknown hknown

/-! ## The start -/

theorem counted_of_precedes (h : Precedes program decls options context owner) :
    0 < context.nextVersion ∧ ∀ entry ∈ context.rebound,
      Counted context.nextVersion entry.2 ∧ entry.2.path = entry.1 := by
  obtain ⟨before, after, results, -, hrun, rfl⟩ := h
  refine context_of_foldlM (P := fun context => 0 < context.nextVersion ∧
    ∀ entry ∈ context.rebound, Counted context.nextVersion entry.2 ∧
    entry.2.path = entry.1) ?_ ⟨Nat.one_pos, by simp [Context.initial]⟩ hrun
  intro owner _ function _ context s' hcontext hruns
  obtain ⟨p', hinside⟩ := Point.inside (.ends hruns)
  have hend := lasts_numbered.inside hinside ⟨hcontext.1, fun entry h => (hcontext.2 entry h).1,
    fun entry h => (hcontext.2 entry h).2, by simp⟩
  exact ⟨hend.pos, fun entry h => ⟨hend.logged entry h, hend.named entry h⟩⟩

theorem numbered_start (h : Precedes program decls options context owner) (size : Nat) :
    Numbered (X := X) ⟨none, []⟩ (.start context size) := by
  obtain ⟨hpos, hlogged⟩ := counted_of_precedes h
  exact ⟨hpos, fun entry h => (hlogged entry h).1, fun entry h => (hlogged entry h).2, by simp⟩

end Regions.Flow
