import Regions.Proofs.Discipline

/-!
# New versions and intermediate values

A version of a variable is given out once, and the intermediate values of a node are made when the
node is about to be recorded. Before that, no storing and no result knows of them.

* `node_of_tempPath`: an intermediate value belongs to one node;
* `MadeBy`: an intermediate value or a region of a node;
* `Dated`: the versions in a graph were given out before;
* `fresh`: the discipline of versions and intermediate values;
* `dated_of_precedes`: what is known before the analysis of a function is dated.
-/

namespace Regions.Flow

variable {env : Env} {s s' : State} {id : NodeId} {function : Function} {context : Context}
  {kind : String} {m : Path} {l : Lifetime} {cur : Option Work}

/-! ## Intermediate values -/

/-- What follows the last mark does not depend on where the mark stands. -/
theorem eq_of_append_mark {α : Type} {mark : α} {xs xs' ys ys' : List α} (hys : mark ∉ ys)
    (hys' : mark ∉ ys') (h : xs ++ mark :: ys = xs' ++ mark :: ys') : ys = ys' := by
  induction xs generalizing xs' with
  | nil =>
    cases xs' with
    | nil => exact (List.cons.inj h).2
    | cons x xs' =>
      refine absurd ?_ hys
      rw [(List.cons.inj h).2]
      simp
  | cons x xs ih =>
    cases xs' with
    | nil =>
      refine absurd ?_ hys'
      rw [← (List.cons.inj h).2]
      simp
    | cons x' xs' => exact ih (List.cons.inj h).2

theorem node_of_tempPath {kind' : String} {id' : NodeId} {m' : Path}
    (h : env.tempPath kind id ++ m = env.tempPath kind' id' ++ m') : id = id' := by
  have hdigits : ∀ n : Nat, '_' ∉ (toString n).toList := by
    intro n hmem
    rw [Nat.toString_eq_repr, Nat.toList_repr] at hmem
    have := Nat.isDigit_of_mem_toDigits (by decide) (by decide) hmem
    exact absurd this (by decide)
  have hsegments := congrArg Path.segments h
  simp only [Env.tempPath, Path.child, Path.segments_append, List.append_assoc,
    List.append_cancel_left_eq, List.cons_append, List.nil_append] at hsegments
  have hname := congrArg String.toList (List.cons.inj hsegments).1
  simp only [String.toList_append, List.append_assoc] at hname
  have hsplit : ("$".toList ++ kind.toList) ++ '_' :: (toString id.index).toList =
      ("$".toList ++ kind'.toList) ++ '_' :: (toString id'.index).toList := by
    simpa [List.append_assoc] using hname
  have hdigits :=
    String.toList_injective (eq_of_append_mark (hdigits id.index) (hdigits id'.index) hsplit)
  exact congrArg NodeId.mk (show id.index = id'.index by simpa [Nat.repr_inj] using hdigits)

theorem tempPath_ne_heap (kind : String) (id : NodeId) (m : Path) :
    env.tempPath kind id ++ m ≠ .single "$heap" := by
  intro h
  have hsegments := congrArg Path.segments h
  simp only [Env.tempPath, Path.child, Path.single, Path.segments_append, List.append_assoc]
    at hsegments
  obtain ⟨-, hrest⟩ | ⟨rest, -, hrest⟩ := List.append_eq_cons_iff.1 hsegments
  · have hname := congrArg String.toList (List.cons.inj hrest).1
    have hmem : '_' ∈ "$heap".toList := by simp [← hname]
    exact absurd hmem (by decide)
  · simp at hrest

/-- The lifetime is an intermediate value or a region that the rule of a node makes. -/
def MadeBy (env : Env) (id : NodeId) (l : Lifetime) : Prop :=
  (l.origin = .temporary ∨ l.origin = .heap) ∧ ∃ kind m, l.path = env.tempPath kind id ++ m

theorem madeBy_unique {other : NodeId}
    (hpath : l.path = env.tempPath kind id ++ m) (h : MadeBy env other l) : other = id := by
  obtain ⟨-, kind', m', hpath'⟩ := h
  exact node_of_tempPath (hpath'.symm.trans hpath)

theorem not_madeBy_of_localValue (h : l.origin = .localValue) : ¬ MadeBy env id l := by
  simp [MadeBy, h]

/-- A storing of the graph has the lifetime at one of its ends. -/
def Occurs (graph : Outlives) (l : Lifetime) : Prop :=
  ∃ k, graph.Holds l k ∨ graph.Holds k l

/-- The versions in the graph were given out before `next`. -/
def Dated (graph : Outlives) (next : Nat) : Prop :=
  ∀ l, Occurs graph l → l.Slotted ∧ (l.version = 0 ∨ l.version < next)

/-- The next version of a variable is none that was given out. -/
theorem ne_nextVersionOf (hpos : 0 < s.context.nextVersion)
    (h : l.version = 0 ∨ l.version < s.context.nextVersion) (path : Path) :
    l ≠ s.nextVersionOf path := by
  rintro rfl
  rcases h with hzero | hlt
  · exact Nat.ne_of_gt hpos hzero
  · exact Nat.lt_irrefl _ hlt

theorem not_occurs_nextVersionOf (hpos : 0 < s.context.nextVersion)
    (h : Dated s.context.graph s.context.nextVersion) (path : Path) :
    ¬ Occurs s.context.graph (s.nextVersionOf path) :=
  fun hoccurs => ne_nextVersionOf hpos (h _ hoccurs).2 path rfl

/-! ## The discipline -/

/-- The declaration of a variable has come to the path. -/
def Begun (env : Env) (cur : Option Work) (s : State) (path : Path) : Prop :=
  Declares env cur path ∨ ∃ id node x value m, s.flowAt id ≠ none ∧
    env.node id = .ok node ∧ node.expr = .declaration x value ∧ path = x ++ m

theorem Begun.later {cur' : Option Work} {path : Path} (h : Begun env cur s path)
    (hgrows : Grows s s') (hcur : Continues cur cur' s') : Begun env cur' s' path := by
  rcases h with ⟨id, done, node, x, value, m, heq, hnode, hexpr, hpath, hm⟩
    | ⟨id, node, x, value, m, hid, hrest⟩
  · rcases hcur id done heq with hid | ⟨done', heq', hsub⟩
    · exact .inr ⟨id, node, x, value, m, hid, hnode, hexpr, hpath⟩
    · exact .inl ⟨id, done', node, x, value, m, heq', hnode, hexpr, hpath, hsub hm⟩
  · exact .inr ⟨id, node, x, value, m, hgrows.recorded_ne_none hid, hrest⟩

/-- Versions were given out before, the first version of a variable belongs to a declaration that
has come to it, and the intermediate values of a node to one that has its result or is about to get
it, unless they were known before the function. -/
structure Fresh (env : Env) (context : Context) (cur : Option Work) (s : State) (l : Lifetime) :
    Prop where
  slotted : l.Slotted
  version : l.version = 0 ∨ l.version < s.context.nextVersion
  first : ∀ path, l = .first path → Begun env cur s path ∨ Occurs context.graph l
  temp : ∀ id, MadeBy env id l →
    (∃ done, cur = some (id, done)) ∨ s.flowAt id ≠ none ∨ Occurs context.graph l

namespace Fresh

variable {cur' : Option Work} {done : List Path}

theorem of_origin (hslotted : l.Slotted)
    (hversion : l.version = 0 ∨ l.version < s.context.nextVersion)
    (hfirst : ∀ path, l ≠ .first path) (hmade : ∀ id, ¬ MadeBy env id l) :
    Fresh env context cur s l :=
  ⟨hslotted, hversion, fun path heq => absurd heq (hfirst path),
    fun id htemp => absurd htemp (hmade id)⟩

theorem later (hgrows : Grows s s') (hcur : Continues cur cur' s') (h : Fresh env context cur s l) :
    Fresh env context cur' s' l where
  slotted := h.slotted
  version := h.version.imp_right fun hlt => Nat.lt_of_lt_of_le hlt hgrows.nextVersion
  first path heq := (h.first path heq).imp_left fun hbegun => hbegun.later hgrows hcur
  temp id htemp := by
    rcases h.temp id htemp with ⟨done, heq⟩ | hid | hoccurs
    · rcases hcur id done heq with hid | ⟨done', heq', -⟩
      · exact .inr (.inl hid)
      · exact .inl ⟨done', heq'⟩
    · exact .inr (.inl (hgrows.recorded_ne_none hid))
    · exact .inr (.inr hoccurs)

/-- An intermediate value of the node that is about to be recorded. -/
theorem of_tempPath (hslotted : l.Slotted) (hversion : l.version = 0)
    (horigin : l.origin ≠ .localValue) (hpath : l.path = env.tempPath kind id ++ m) :
    Fresh env context (some (id, done)) s l where
  slotted := hslotted
  version := .inl hversion
  first _ heq := absurd (congrArg Lifetime.origin heq) horigin
  temp _ hother := madeBy_unique hpath hother ▸ .inl ⟨done, rfl⟩

end Fresh

def fresh (env : Env) (context : Context) : Discipline env where
  Valid := Fresh env context
  Holder := Fresh env context
  Edge := fun cur s c x => Fresh env context cur s c ∧ Fresh env context cur s x
  Named := fun _ => True
  Bare := fun _ => True
  base := context.rebound.length
  least := 1
  valid_later := fun hgrows hcur h => h.later hgrows hcur
  edge_later := fun hgrows hcur h => ⟨h.1.later hgrows hcur, h.2.later hgrows hcur⟩
  edge := fun hc hx _ _ => ⟨hc, hx⟩
  edge_heap := fun hx _ => ⟨.of_origin (Lifetime.slotted_root _ _) (.inl rfl)
    (by simp [Lifetime.heap, Lifetime.first])
    fun _ hmade => hmade.2.elim fun _ hm => hm.elim fun _ h => tempPath_ne_heap _ _ _ h.symm, hx⟩
  holder_of_valid := fun h => h
  holder_of_edge := fun _ h => h.2
  slotted := fun h => h.slotted
  named_of_slot := fun _ _ => trivial
  valid_none :=
    .of_origin Lifetime.slotted_none (.inl rfl) (by simp [Lifetime.none, Lifetime.first])
    (by simp [Lifetime.none, MadeBy])
  valid_temp := fun _ _ _ _ => .of_tempPath (Lifetime.slotted_of_origin (by simp)) rfl (by simp) rfl
  valid_region := by
    rintro s id done kind m origin horigin -
    refine .of_tempPath (Lifetime.slotted_root _ _) rfl ?_ rfl
    rcases horigin with rfl | rfl <;> simp [Lifetime.root]
  valid_variable := by
    rintro cur s path origin - horigin -
    refine .of_origin (Lifetime.slotted_root _ _) (.inl rfl)
      (by simp [Lifetime.root, Lifetime.first]) ?_
    rcases horigin with rfl | rfl <;> simp [Lifetime.root, MadeBy]
  valid_version := by
    rintro cur s path version - (⟨rfl, hdeclares⟩ | ⟨hleast, hlt⟩)
    · refine ⟨Lifetime.slotted_of_origin (by simp), .inl rfl, fun other heq => ?_,
        fun _ htemp => absurd htemp (not_madeBy_of_localValue rfl)⟩
      cases heq
      exact .inl (.inl hdeclares)
    · refine .of_origin (Lifetime.slotted_of_origin (by simp)) (.inr hlt)
        (fun other heq => ?_) fun _ => not_madeBy_of_localValue rfl
      exact absurd (congrArg Lifetime.version heq) (Nat.ne_of_gt hleast)

theorem names_fresh : (fresh env context).NamesVariables ∧
    ∀ parameters, (fresh env context).NamesParameters parameters :=
  Discipline.NamesVariables.of_forall (fun _ => trivial) fun _ => trivial

theorem inv_start_fresh {size : Nat} (h : Dated context.graph context.nextVersion)
    (hpos : 0 < context.nextVersion) : (fresh env context).Inv none (.start context size) := by
  have hknown : ∀ l, Occurs context.graph l → Fresh env context none (.start context size)
      l := fun l hl =>
    ⟨(h l hl).1, (h l hl).2, fun _ _ => .inr hl, fun _ _ => .inr (.inr hl)⟩
  exact Discipline.inv_start rfl hpos fun c x hx =>
    ⟨hknown c ⟨x, .inl hx⟩, hknown x ⟨c, .inr hx⟩⟩

theorem Discipline.Inv.occurs (h : (fresh env context).Inv cur s)
    (hl : Occurs s.context.graph l) : Fresh env context cur s l := by
  obtain ⟨k, hk | hk⟩ := hl
  · exact (h.graph l k hk).1
  · exact (h.graph k l hk).2

theorem Discipline.Inv.dated (h : (fresh env context).Inv cur s) :
    Dated s.context.graph s.context.nextVersion :=
  fun _ hl => ⟨(h.occurs hl).slotted, (h.occurs hl).version⟩

/-- What is known before the analysis of a function is dated. -/
theorem dated_of_precedes {program : Program} {decls : Declarations} {options : Options}
    {owner : Owner} (h : Precedes program decls options context owner) :
    Dated context.graph context.nextVersion ∧ 0 < context.nextVersion := by
  obtain ⟨before, after, results, -, hrun, rfl⟩ := h
  refine context_of_foldlM (P := fun context =>
    Dated context.graph context.nextVersion ∧ 0 < context.nextVersion) ?_ ⟨?_,
      Nat.one_pos⟩ hrun
  · intro owner _ function _ context s' hcontext hruns
    have hend := Discipline.inv_of_analyzeFunction names_fresh.1 (names_fresh.2 _)
      (inv_start_fresh hcontext.1 hcontext.2) hruns
    exact ⟨hend.dated,
      Nat.lt_of_lt_of_le hcontext.2 (grows_analyzeFunction _ _ _ _ _ hruns).nextVersion⟩
  · rintro l ⟨k, hk | hk⟩
    · exact absurd hk (Digraph.not_adj_empty l k)
    · exact absurd hk (Digraph.not_adj_empty k l)

/-- A node is come to in a state that keeps to the discipline. -/
theorem inv_fresh_of_comesTo {program : Program} {decls : Declarations} {options : Options}
    {owner : Owner} (hprecedes : Precedes program decls options context owner)
    (h : ComesTo (.ofFunction decls options owner function) function context id s) :
    0 < s.context.nextVersion ∧
      (fresh (.ofFunction decls options owner function) context).Inv none s := by
  obtain ⟨hdated, hpos⟩ := dated_of_precedes hprecedes
  obtain ⟨hgrows, hinv⟩ :=
    Discipline.inv_of_comesTo names_fresh.1 (names_fresh.2 _) (inv_start_fresh hdated hpos) h
  exact ⟨Nat.lt_of_lt_of_le hpos hgrows.nextVersion, hinv⟩

end Regions.Flow
