import Regions.Proofs.Drafting.Openings
import Regions.Proofs.Faults

/-!
# Visible variables

Names are resolved while a body is drafted, and variables are looked up when it is analysed. The two
agree: where a variable is named, the frame has all its members. The body has to be a tree in the
order of evaluation, and each declaration a statement of a block that was open when it was made.

* `Spans.sibling`: what comes after an operand does not reach back over it;
* `DeclaresInBlocks`: where declarations stand;
* `InSight`: the frame has the parameters, and what was declared in the blocks that go on;
* `guides_sighted`: what is in sight where the analysis comes to a node is so where it comes to the
  operands.
-/

namespace Regions

variable {first' : Nat} {block : NodeId} {frame : Frame} {x : Path} {ty : Ty}

/-- The operands of an expression are all analysed, in their order, or none is. -/
theorem Expr.map_uses (position : Flow.Position) (expr : Expr) :
    (expr.uses position).map Prod.snd = expr.children ∨ expr.uses position = [] := by
  cases position <;> cases expr <;> simp [Expr.uses, Expr.children, Function.comp_def]

/-! ## Trees in the order of evaluation -/

namespace Spans

variable {nodes : Arena Node} {first last : Nat} {id : NodeId} {ids : List NodeId}

/-- Where a tree begins depends only on its roots and where it ends. -/
theorem first_unique (h : Spans nodes first ids last) (h' : Spans nodes first' ids last) :
    first = first' := by
  induction h generalizing first' with
  | nil => exact h'.eq_of_nil.symm
  | cons hnode _ _ ih _ =>
    cases h' with
    | cons hnode' below' _ =>
      cases hnode.symm.trans hnode'
      exact ih below'

/-- Every node in between is the root of a tree of its own, which does not begin before. -/
theorem find (h : Spans nodes first ids last) (hfirst : first ≤ id.index)
    (hlast : id.index < last) :
    ∃ first', first ≤ first' ∧ Spans nodes first' [id] (id.index + 1) := by
  induction h with
  | nil => omega
  | @cons first last root ids node hnode below rest ihbelow ihrest =>
    have hle := below.le
    rcases Nat.lt_trichotomy id.index root.index with hlt | heq | hgt
    · exact ihbelow hfirst hlt
    · obtain rfl : id = root := by
        cases id
        cases root
        exact congrArg NodeId.mk heq
      exact ⟨first, Nat.le_refl _, .cons hnode below (.nil _)⟩
    · obtain ⟨first', hle', htree⟩ := ihrest hgt hlast
      exact ⟨first', by omega, htree⟩

theorem first_le (h : Spans nodes first ids last) (hfirst : first ≤ id.index)
    (hlast : id.index < last) (htree : Spans nodes first' [id] (id.index + 1)) :
    first ≤ first' := by
  obtain ⟨begin, hle, hfound⟩ := h.find hfirst hlast
  rwa [← hfound.first_unique htree]

/-- What comes after one of the roots begins after it. -/
theorem sibling {root : NodeId} (h : Spans nodes first ids last) (hroot : root ∈ ids)
    (hafter : root.index < id.index) (hlast : id.index < last)
    (htree : Spans nodes first' [id] (id.index + 1)) : root.index < first' := by
  induction h with
  | nil => cases hroot
  | cons hnode below rest _ ih =>
    rcases List.mem_cons.1 hroot with rfl | hroot
    · exact rest.first_le hafter hlast htree
    · exact ih hroot hlast

/-- One of several trees, and those before it. -/
theorem split {before after : List NodeId} (h : Spans nodes first (before ++ id :: after) last) :
    ∃ middle, Spans nodes first before middle ∧ Spans nodes middle [id] (id.index + 1) := by
  induction before generalizing first with
  | nil => exact ⟨first, .nil first, h.head.1⟩
  | cons other before ih =>
    obtain ⟨middle, hbefore, hid⟩ := ih h.head.2
    exact ⟨middle, h.head.1.append hbefore, hid⟩

/-- A node in between belongs to one of the trees. -/
theorem exists_root (h : Spans nodes first ids last) (hfirst : first ≤ id.index)
    (hlast : id.index < last) :
    ∃ root ∈ ids, ∃ begin, Spans nodes begin [root] (root.index + 1) ∧
    begin ≤ id.index ∧ id.index ≤ root.index := by
  induction ids generalizing first with
  | nil =>
    have := h.eq_of_nil
    omega
  | cons root ids ih =>
    rcases Nat.lt_or_ge root.index id.index with hafter | hle
    · obtain ⟨other, hother, hfound⟩ := ih h.head.2 hafter
      exact ⟨other, List.mem_cons_of_mem _ hother, hfound⟩
    · exact ⟨root, List.mem_cons_self, first, h.head.1, hfirst, hle⟩

end Spans

/-- The site is a statement of the block. -/
def HasStatement (nodes : Arena Node) (block site : NodeId) : Prop :=
  ∃ node statements, nodes.get? block = some node ∧ node.expr = .block statements ∧
    site ∈ statements

instance {nodes : Arena Node} {block site : NodeId} : Decidable (HasStatement nodes block site) :=
  decidable_of_iff
    (∃ node, nodes.get? block = some node ∧ node.expr = .block node.expr.children ∧
    site ∈ node.expr.children) <| by
  constructor
  · rintro ⟨node, hnode, hexpr, hsite⟩
    exact ⟨node, _, hnode, hexpr, hsite⟩
  · rintro ⟨node, statements, hnode, hexpr, hsite⟩
    exact ⟨node, hnode, by rw [hexpr]; rfl, by rw [hexpr]; exact hsite⟩

/-- Every declaration is a statement of one of the blocks, which was open when it was made. -/
def DeclaresInBlocks (nodes : Arena Node) (blocks : List (NodeId × Nat)) : Prop :=
  ∀ id node x value, nodes.get? id = some node → node.expr = .declaration x value →
    ∃ block ∈ blocks, block.2 ≤ id.index ∧ HasStatement nodes block.1 id

instance {nodes : Arena Node} {blocks : List (NodeId × Nat)} :
    Decidable (DeclaresInBlocks nodes blocks) :=
  decidable_of_iff
    (∀ id node, nodes.get? id = some node → ∀ x value, node.expr = .declaration x value →
      ∃ block ∈ blocks, block.2 ≤ id.index ∧ HasStatement nodes block.1 id)
    ⟨fun h id node x value hnode => h id node hnode x value, fun h id node hnode x value =>
      h id node x value hnode⟩

namespace Flow

variable {env : Env} {parameters : List Parameter} {first : Nat} {id : NodeId} {node : Node}
  {s s₁ s' : State}

/-- The body is one tree, and variables are named only where the block of their declaration goes
on. -/
structure Scopes (env : Env) (parameters : List Parameter) : Prop where
  tree : ∃ root, Spans env.owner.nodes 0 [root] env.owner.nodes.size
  vars : ∀ id node x, env.owner.nodes.get? id = some node → node.expr = .var x →
    (∃ p ∈ parameters, p.path = x ∧ p.ty = node.ty) ∨
    ∃ site block, site.index < id.index ∧
      Binds [] env.owner.nodes x (some site) node.ty ∧ HasStatement env.owner.nodes block site ∧
        id.index < block.index

namespace Scopes

theorem tree_of (h : Scopes env parameters) (hnode : env.owner.nodes.get? id = some node) :
    ∃ first, Spans env.owner.nodes first [id] (id.index + 1) ∧
      Spans env.owner.nodes first node.expr.children id.index := by
  obtain ⟨root, htree⟩ := h.tree
  obtain ⟨first, -, hid⟩ := htree.find (Nat.zero_le _) (index_lt_size hnode)
  exact ⟨first, hid, (hid.root hnode).1⟩

theorem ordered (h : Scopes env parameters) (hnode : env.owner.nodes.get? id = some node)
    {child : NodeId} (hchild : child ∈ node.expr.children) : child.index < id.index := by
  obtain ⟨first, -, hbelow⟩ := h.tree_of hnode
  exact (hbelow.bounds hchild).2

/-- Blocks around a statement inside a tree do not go on after the tree. -/
theorem hasStatement_inside (h : Scopes env parameters)
    (htree : Spans env.owner.nodes first [id] (id.index + 1)) {site : NodeId}
    (hsite : first ≤ site.index) (hinside : site.index < id.index)
    (hblock : HasStatement env.owner.nodes block site) : block.index ≤ id.index := by
  obtain ⟨node, statements, hnode, hexpr, hmem⟩ := hblock
  obtain ⟨begin, -, hbelow⟩ := h.tree_of hnode
  by_contra hafter
  have hsibling := hbelow.sibling (by rw [hexpr]; exact hmem) hinside (Nat.not_le.1 hafter) htree
  omega

/-- A statement has no other use. -/
theorem hasStatement_unique (h : Scopes env parameters) {site : NodeId}
    (hnode : env.owner.nodes.get? id = some node) (hchild : site ∈ node.expr.children)
    (hblock : HasStatement env.owner.nodes block site) : block = id := by
  obtain ⟨blockNode, statements, hblockNode, hexpr, hmem⟩ := hblock
  have hmem' : site ∈ blockNode.expr.children := by
    rw [hexpr]
    exact hmem
  obtain ⟨first, htree, hbelow⟩ := h.tree_of hnode
  obtain ⟨first', htree', hbelow'⟩ := h.tree_of hblockNode
  have hbounds := hbelow.bounds hchild
  have hbounds' := hbelow'.bounds hmem'
  rcases Nat.lt_trichotomy block.index id.index with hlt | heq | hgt
  · have := hbelow.sibling hchild hbounds'.2 hlt htree'
    omega
  · cases block
    cases id
    exact congrArg NodeId.mk heq
  · have := hbelow'.sibling hmem' hbounds.2 hgt htree
    omega

end Scopes

/-! ## States -/

/-- All members of a variable of this type can be looked up. -/
def Sees (env : Env) (frame : Frame) (x : Path) (ty : Ty) : Prop :=
  ∀ members, env.declarations.members ty = .ok members → ∀ member ∈ members,
    ∃ extent, frame.lookup? (x ++ member.1) = some extent

theorem Sees.of_fields {fields : List Field} (hfields : env.declarations.fields ty = .ok fields)
    (h : ∀ field ∈ fields, ∃ extent, frame.lookup? (x ++ field.path) = some extent) :
    Sees env frame x ty := by
  intro members hmembers member hmember
  obtain ⟨members', hmembers', hpaths⟩ := Declarations.map_path_of_fields hfields
  cases hmembers.symm.trans hmembers'
  have hpath : member.1 ∈ fields.map Field.path := hpaths ▸ List.mem_map_of_mem hmember
  obtain ⟨field, hfield, heq⟩ := List.mem_map.1 hpath
  exact heq ▸ h field hfield

theorem Sees.mono {frame' : Frame} (h : Sees env frame x ty)
    (hvisible : frame.VisibleIn frame') : Sees env frame' x ty :=
  fun members hmembers member hmember => hvisible _ (h members hmembers member hmember)

/-- Before the nodes from `first` on: none of them has a result, and the frame has the parameters
and what was declared in the blocks that go on. -/
structure InSight (env : Env) (parameters : List Parameter) (first : Nat) (s : State) : Prop where
  fresh : ∀ id : NodeId, first ≤ id.index → s.flowAt id = none
  parameters : ∀ p ∈ parameters, Sees env s.frame p.path p.ty
  declared : ∀ x site ty block, Binds [] env.owner.nodes x (some site) ty →
    site.index < first →
    HasStatement env.owner.nodes block site → first ≤ block.index → Sees env s.frame x ty

/-- An analysis that is watched for what is in sight where it comes to a node. -/
def sighted (env : Env) (parameters : List Parameter) : Watch where
  halts := fun _ => True
  arrives := fun _ id s => ∃ first, Spans env.owner.nodes first [id] (id.index + 1) ∧
    InSight env parameters first s
  deep := True

theorem fresh_sighted (env : Env) (parameters : List Parameter) :
    (sighted env parameters).Fresh := by
  rintro position id s ⟨first, htree, hs⟩
  exact hs.fresh id (htree.bounds List.mem_cons_self).1

/-- What an operand declares is seen if the node is a block, and no block outside it needs to see
it. -/
theorem Onward.sees (hscopes : Scopes env parameters) (hnode : env.owner.nodes.get? id = some node)
    {before : List (Position × NodeId)} (h : Onward env (sighted env parameters) node before s s')
    (hchildren : ∀ use ∈ before, use.2 ∈ node.expr.children) {use : Position × NodeId}
    (huse : use ∈ before) (hbinds : Binds [] env.owner.nodes x (some use.2) ty)
    (hblock : HasStatement env.owner.nodes block use.2) : Sees env s'.frame x ty := by
  obtain rfl := hscopes.hasStatement_unique hnode (hchildren use huse) hblock
  obtain ⟨blockNode, statements, hblockNode, hexpr, -⟩ := hblock
  cases hnode.symm.trans hblockNode
  cases hbinds with
  | declaration hsite hdeclaration hvalue =>
    obtain ⟨ty, fields, hty, hfields, hall⟩ :=
      h.shows (fresh_sighted env parameters) statements hexpr use huse _
      (env_node_eq_ok_iff.2 hsite) _ _ hdeclaration
    cases (Env.typeOf_of_node (env_node_eq_ok_iff.2 hvalue)).symm.trans hty
    exact .of_fields hfields hall

/-- From the start of a rule to its next operand, nothing gets out of sight. -/
theorem InSight.onward (hscopes : Scopes env parameters)
    (hnode : env.owner.nodes.get? id = some node) {before : List (Position × NodeId)}
    {middle : Nat} (h : InSight env parameters first s)
    (hspans : Spans env.owner.nodes first (before.map Prod.snd) middle)
    (hchildren : ∀ use ∈ before, use.2 ∈ node.expr.children)
    (honward : Onward env (sighted env parameters) node before s s') :
    InSight env parameters middle s' where
  fresh := by
    intro other hother
    -- The rule has only given results to the operands before, and to what is below them.
    have hrecords := honward.recorded (fun id => id.index < middle)
      (fun id found hid hfound child hchild =>
        Nat.lt_trans (hscopes.ordered (env_node_eq_ok_iff.1 hfound) hchild) hid)
      (fun use huse => (hspans.bounds (List.mem_map_of_mem huse)).2) other (Nat.not_lt.2 hother)
    exact hrecords.trans (h.fresh other (Nat.le_trans hspans.le hother))
  parameters := fun p hp => (h.parameters p hp).mono honward.visible
  declared := by
    intro x site ty block hbinds hsite hblock hlast
    have hle := hspans.le
    rcases Nat.lt_or_ge site.index first with hbefore | hinside
    · exact (h.declared x site ty block hbinds hbefore hblock (by omega)).mono honward.visible
    · obtain ⟨root, hroot, begin, htree, hbegin, hend⟩ := hspans.exists_root hinside hsite
      obtain ⟨use, huse, rfl⟩ := List.mem_map.1 hroot
      rcases Nat.lt_or_eq_of_le hend with hlt | heq
      · -- Strictly inside the tree of an operand, and so is the block.
        have := hscopes.hasStatement_inside htree hbegin hlt hblock
        have := (hspans.bounds hroot).2
        omega
      · obtain rfl : site = use.2 := congrArg NodeId.mk heq
        exact honward.sees hscopes hnode hchildren huse hbinds hblock

/-- What is in sight where the analysis comes to a node is so where it comes to the operands. -/
theorem guides_sighted {X : Setting} (hscopes : Scopes X.env X.parameters) :
    (sighted X.env X.parameters).Guides X := by
  rintro position id node - hnode before use after s s' huses ⟨first, htree, hs⟩ honward
  have hfound := env_node_eq_ok_iff.1 hnode
  have hchildren : node.expr.children = before.map Prod.snd ++ use.2 :: after.map Prod.snd := by
    have hmap := (node.expr.map_uses position).resolve_right (by simp [huses])
    rw [← hmap, huses, List.map_append, List.map_cons]
  obtain ⟨middle, hbefore, huse⟩ := (hchildren ▸ (htree.root hfound).1).split
  refine ⟨middle, huse, hs.onward hscopes hfound hbefore (fun other hother => ?_) honward⟩
  rw [hchildren]
  exact List.mem_append_left _ (List.mem_map_of_mem hother)

theorem InSight.sees (hscopes : Scopes env parameters) (hnode : env.owner.nodes.get? id = some node)
    (htree : Spans env.owner.nodes first [id] (id.index + 1)) (h : InSight env parameters first s)
    (hexpr : node.expr = .var x) : Sees env s.frame x node.ty := by
  have hfirst : first = id.index := by
    have hspans := (htree.root hnode).1
    rw [hexpr] at hspans
    exact hspans.eq_of_nil
  rcases hscopes.vars id node x hnode hexpr
    with ⟨p, hp, rfl, hty⟩ | ⟨site, block, hsite, hbinds, hblock, hopen⟩
  · exact hty ▸ h.parameters p hp
  · exact h.declared x site node.ty block hbinds (by omega) hblock (by omega)

/-! ## Functions -/

/-- What is declared can be looked up, and hides nothing. -/
theorem exists_lookup?_declare {path : Path} {extent : Extent} {other : Path}
    (h : other = path ∨ ∃ found, frame.lookup? other = some found) :
    ∃ found, (frame.declare path extent).lookup? other = some found := by
  rw [Frame.lookup?_declare]
  split
  · exact ⟨extent, rfl⟩
  · rename_i hne
    exact h.resolve_left hne

theorem visible_of_declareParameterFields {fields : List Field}
    (h : Runs (fields.forM (declareParameterMember x)) s () s') (path : Path)
    (hpath : (∃ field ∈ fields, path = x ++ field.path) ∨
      ∃ extent, s.frame.lookup? path = some extent) :
    ∃ extent, s'.frame.lookup? path = some extent := by
  induction h using runs_forM_rec with
  | nil => simpa using hpath
  | cons field fields hfield _ ih =>
    obtain ⟨-, extent, hframe, -⟩ := frame_declareParameterMember hfield
    apply ih
    rw [hframe]
    rcases hpath with ⟨found, hfound, rfl⟩ | hpath
    · rcases List.mem_cons.1 hfound with rfl | hfound
      · exact .inr (exists_lookup?_declare (.inl rfl))
      · exact .inl ⟨found, hfound, rfl⟩
    · exact .inr (exists_lookup?_declare (.inr hpath))

/-- After the parameters are declared, all of them can be looked up. -/
theorem sees_of_declareParameters {parameters : List Parameter}
    (h : Runs (declareParameters env parameters) s () s') : s.frame.VisibleIn s'.frame ∧
      ∀ p ∈ parameters, Sees env s'.frame p.path p.ty := by
  induction h using runs_forM_rec with
  | nil => exact ⟨fun _ hpath => hpath, by simp⟩
  | @cons p parameters s s₁ s' hp _ ih =>
    simp only [runs_bind_iff, runs_lift_iff] at hp
    obtain ⟨fields, _, ⟨hfields, rfl⟩, hp⟩ := hp
    have hvisible := visible_of_declareParameterFields hp
    obtain ⟨hvisible', hsees⟩ := ih
    refine ⟨fun path hpath => hvisible' path (hvisible path (.inr hpath)), fun q hq => ?_⟩
    rcases List.mem_cons.1 hq with rfl | hq
    · have hfirst : Sees env s₁.frame q.path q.ty :=
        .of_fields hfields fun field hfield => hvisible _ (.inl ⟨field, hfield, rfl⟩)
      exact hfirst.mono hvisible'
    · exact hsees q hq

/-- Names are resolved as the analysis needs it. -/
theorem scopes_of_ofTerm {decls : Declarations} {ownerId : OwnerId} {signature : Signature}
    {body : Term} {function : Function}
    (h : Function.ofTerm decls ownerId signature body = .ok env.owner)
    (hkind : env.owner.kind = .function function)
    (htree : Spans env.owner.nodes 0 [function.body] env.owner.nodes.size)
    (hblocks : DeclaresInBlocks env.owner.nodes (body.openings 0)) :
    Scopes env function.parameters where
  tree := ⟨function.body, htree⟩
  vars := by
    intro id node x hnode hexpr
    refine (binds_of_ofTerm h hkind hnode hexpr).imp_right ?_
    rintro ⟨site, hbinds, hsite, hopen⟩
    obtain ⟨siteNode, value, hsiteNode, hdeclaration⟩ := hbinds.exists_declaration
    obtain ⟨block, hblock, hopened, hstatement⟩ :=
      hblocks site siteNode x value hsiteNode hdeclaration
    have hlt : site.index < block.1.index := by
      obtain ⟨blockNode, statements, hblockNode, hstatements, hmem⟩ := hstatement
      apply (htree.child (Nat.zero_le _) (index_lt_size hblockNode) hblockNode _).2
      rw [hstatements]
      exact hmem
    exact ⟨site, block.1, hsite, hbinds, hstatement, (hopen block hblock ⟨hopened, hlt⟩).2⟩

/-! ## Checking a body -/

end Flow

/-- Where the tree of a node ends that begins at `first`, down to some depth. -/
def Arena.treeEnd? (nodes : Arena Node) : Nat → Nat → NodeId → Option Nat
  | 0, _, _ => none
  | depth + 1, first, id => do
      let node ← nodes.get? id
      let last ← node.expr.children.foldlM (nodes.treeEnd? depth) first
      guard (last = id.index)
      return id.index + 1

theorem spans_of_treeEnd? {nodes : Arena Node} {depth first last : Nat} {ids : List NodeId}
    (h : ids.foldlM (nodes.treeEnd? depth) first = some last) : Spans nodes first ids last := by
  induction depth generalizing first last ids with
  | zero =>
    cases ids with
    | nil =>
      cases h
      exact .nil _
    | cons id ids => cases h
  | succ depth ih =>
    induction ids generalizing first with
    | nil =>
      cases h
      exact .nil _
    | cons id ids ihids =>
      rw [List.foldlM_cons] at h
      obtain ⟨middle, hmiddle, hrest⟩ := Option.bind_eq_some_iff.1 h
      obtain ⟨node, hnode, hbelow⟩ := Option.bind_eq_some_iff.1 hmiddle
      obtain ⟨below, hchildren, hend⟩ := Option.bind_eq_some_iff.1 hbelow
      obtain ⟨_, hguard, heq⟩ := Option.bind_eq_some_iff.1 hend
      cases heq
      have hindex : below = id.index := by simpa [guard] using hguard
      exact .cons hnode (hindex ▸ ih hchildren) (ihids hrest)

/-! ## Visibility -/

namespace Flow

/-- Wherever the analysis of the body looks up a variable, the variable is there. The body is a tree
in the order of evaluation, and its declarations are statements of blocks that were open when they
were made. -/
theorem runFunction_ne_undeclaredBinding {decls : Declarations} {ownerId : OwnerId}
    {signature : Signature} {body : Term} {owner : Owner} {function : Function}
    (h : Function.ofTerm decls ownerId signature body = .ok owner)
    (hkind : owner.kind = .function function)
    (htree : Spans owner.nodes 0 [function.body] owner.nodes.size)
    (hblocks : DeclaresInBlocks owner.nodes (body.openings 0)) (decls' : Declarations)
    (options : Options) (context : Context) (path : Path) :
    runFunction decls' options context owner function ≠ .error
    (.fault (.undeclaredBinding path)) := by
  have hscopes : Scopes (.ofFunction decls' options owner function) function.parameters :=
    scopes_of_ofTerm h hkind htree hblocks
  intro hfault
  obtain ⟨s, habort⟩ := exists_of_runFunction hfault
  have hbody : Spans owner.nodes 0 [function.body] (function.body.index + 1) := htree.head.1
  have htraces := traces_analyzeFunction (.ofFunction decls' options owner function) function
    (p := ⟨none, []⟩) rfl (guides_sighted hscopes) (.inl trivial) (fun s' hrun => ?_)
      (fun _ => trivial)
    (.refl _ (.start context owner.nodes.size))
  · -- A variable that is named is in sight, so none is missing.
    rw [show _ = _ from habort] at htraces
    obtain ⟨p, -, hstops⟩ := htraces
    obtain ⟨task, x, m, members, hexpr, ⟨first, hspans, hs⟩, hmembers, hm, hnone⟩ :=
      (hstops.fault _ rfl).undeclaredBinding
    obtain ⟨member, hmember, rfl⟩ := List.mem_map.1 hm
    have hsees := hs.sees hscopes (env_node_eq_ok_iff.1 task.found) hspans hexpr
    obtain ⟨extent, hextent⟩ := hsees members hmembers member hmember
    cases hnone.symm.trans hextent
  · obtain ⟨-, hfresh⟩ := runs_declareParameters (fun _ hp => hp)
      (fun q extent hlookup => by simp [lookup?_start] at hlookup) hrun
    refine ⟨0, hbody, fun id _ => (hfresh id).trans (flowAt_start _ _ id),
      (sees_of_declareParameters hrun).2, ?_⟩
    exact fun _ site _ _ _ hsite => absurd hsite (Nat.not_lt_zero _)

/-- `x = 0; p = &x; if true { p = new int; p = &x }; while true { p = &x }; *p`, where the second
`p` hides the first. -/
def shadowing : Term :=
  .block [
    .declare "x" (.literal (.int 0)),
    .declare "p" (.addressOf (.var "x")),
    .cond (.literal (.bool true))
      (.block [.declare "p" (.newDefault .int), .assign (.var "p") (.addressOf (.var "x"))]) none,
    .loop (.literal (.bool true)) (.block [.assign (.var "p") (.addressOf (.var "x"))]),
    .dereference (.var "p")]

theorem visible_of_shadowing :
    ∃ owner function, Function.ofTerm ∅ ⟨0⟩ ⟨.single "f", [], .void⟩
    shadowing = .ok owner ∧
      owner.kind = .function function ∧ Spans owner.nodes 0 [function.body] owner.nodes.size ∧
      DeclaresInBlocks owner.nodes (shadowing.openings 0) ∧
      ∀ path, runFunction ∅ {} .initial owner function ≠ .error
      (.fault (.undeclaredBinding path)) := by
  have h : ∃ owner, Function.ofTerm ∅ ⟨0⟩ ⟨.single "f", [], .void⟩
    shadowing = .ok owner ∧ ∃ function, owner.kind = .function function ∧
        [function.body].foldlM (owner.nodes.treeEnd? owner.depth) 0 = some owner.nodes.size ∧
        DeclaresInBlocks owner.nodes (shadowing.openings 0) := by
    decide +kernel
  obtain ⟨owner, howner, function, hkind, htree, hblocks⟩ := h
  have hspans := spans_of_treeEnd? htree
  exact ⟨owner, function, howner, hkind, hspans, hblocks, fun path =>
    runFunction_ne_undeclaredBinding howner hkind hspans hblocks ∅ {} .initial path⟩

/-- `{ x = 0 }; &x`, where the declaration was made before its block was opened. -/
def straying : Term :=
  .block [
    .after (.labelled "d" (.declare "x" (.literal (.int 0)))) (.block [.shared "d"]),
    .addressOf (.var "x")]

/-- It is not enough that declarations are statements of blocks. -/
theorem exists_undeclaredBinding_of_straying :
    ∃ owner function path, Function.ofTerm ∅ ⟨0⟩ ⟨.single "f", [], .void⟩
    straying = .ok owner ∧
      owner.kind = .function function ∧ Spans owner.nodes 0 [function.body] owner.nodes.size ∧
      (∀ id node x value, owner.nodes.get? id = some node → node.expr = .declaration x value →
        ∃ block, HasStatement owner.nodes block id) ∧
      runFunction ∅ {} .initial owner function = .error (.fault (.undeclaredBinding path)) := by
  have h : ∃ owner, Function.ofTerm ∅ ⟨0⟩ ⟨.single "f", [], .void⟩
    straying = .ok owner ∧ ∃ function, owner.kind = .function function ∧
        [function.body].foldlM (owner.nodes.treeEnd? owner.depth) 0 = some owner.nodes.size ∧
        DeclaresInBlocks owner.nodes (owner.nodes.ids.map (·, 0)) ∧
        runFunction ∅ {} .initial owner function =
          .error (.fault (.undeclaredBinding ⟨["f", "$block_0", "x"]⟩)) := by
    decide +kernel
  obtain ⟨owner, howner, function, hkind, htree, hdeclares, hrun⟩ := h
  refine ⟨owner, function, _, howner, hkind, spans_of_treeEnd? htree,
    fun id node x value hnode hexpr => ?_, hrun⟩
  obtain ⟨block, -, -, hstatement⟩ := hdeclares id node x value hnode hexpr
  exact ⟨block.1, hstatement⟩

end Flow
end Regions
