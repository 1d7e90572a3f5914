import Mathlib.Data.List.Nodup
import Mathlib.Data.Nat.Find
import Regions.Proofs.Points
import Regions.Proofs.Walks

/-!
# Bodies that are trees

The body of a function is a tree if its walk comes to every node once. In a tree every node has one
position: it stands for its value, or it names its storage.

* `Leads`: from a node in its position, the analysis comes to another one;
* `acyclic_of_walkFrom`: where there is a walk, no node is among its own operands;
* `Traverses.position_eq`: in a tree, the position of a node is determined;
* `above_eq_of_mem_children`: in a tree, a node is an operand of one node only.
-/

namespace Regions

theorem Expr.uses_eq (position : Flow.Position) (expr : Expr) :
    expr.uses position = [] ∨ (expr.uses position).map Prod.snd = expr.children := by
  cases position <;> cases expr <;> simp [Expr.uses, Expr.children, Function.comp_def]

/-- The walk of a function is that of its body. -/
theorem Owner.walk_eq {owner : Owner} {function : Function}
    (hkind : owner.kind = .function function) :
    owner.walk = owner.walkFrom owner.depth function.body := by
  rw [walk, hkind]

namespace Flow

variable {env : Env} {roots : List NodeId} {depth : Nat} {id : NodeId} {ids : List NodeId}
  {position : Position}

/-- Where there are walks from the roots, no node is among its own operands: the shortest depth of a
walk is a rank. -/
theorem acyclic_of_walkFrom (parameters : List Parameter)
    (h : ∀ root ∈ roots, ∃ depth ids, env.owner.walkFrom depth root = .ok ids) :
    Setting.Acyclic ⟨env, parameters, Traverses env roots⟩ := by
  classical
  let walks (id : NodeId) (depth : Nat) : Prop := ∃ ids, env.owner.walkFrom depth id = .ok ids
  let rank (id : NodeId) : Nat := if h : ∃ depth, walks id depth then Nat.find h else 0
  refine ⟨fun id => ∃ depth, walks id depth, rank, fun position id htraverses => ?_,
    fun id node hid hnode child hchild => ?_⟩
  · induction htraverses with
    | root hroot => exact h _ hroot
    | use _ hnode hoperand ih =>
      obtain ⟨depth, ids, hwalk⟩ := ih
      obtain ⟨below, part, -, hpart⟩ :=
        Owner.exists_walkFrom_child hwalk hnode (Expr.mem_children_of_mem_uses hoperand)
      exact ⟨below, part, hpart⟩
  · obtain ⟨ids, hwalk⟩ := Nat.find_spec hid
    obtain ⟨below, part, hlt, hpart⟩ := Owner.exists_walkFrom_child hwalk hnode hchild
    have hwalks : ∃ depth, walks child depth := ⟨below, part, hpart⟩
    refine ⟨hwalks, ?_⟩
    simp only [rank, dif_pos hid, dif_pos hwalks]
    exact Nat.lt_of_le_of_lt (Nat.find_min' hwalks ⟨part, hpart⟩) hlt

/-- From a node in its position, the analysis comes to another one. -/
def Leads (env : Env) : Position × NodeId → Position × NodeId → Prop :=
  Relation.ReflTransGen fun above below =>
    ∃ node, env.node above.2 = .ok node ∧ below ∈ node.expr.uses above.1

theorem Traverses.leads (h : Traverses env roots position id) :
    ∃ root ∈ roots, Leads env (.value, root) (position, id) := by
  induction h with
  | root hroot => exact ⟨_, hroot, .refl⟩
  | use _ hnode hoperand ih =>
    obtain ⟨root, hroot, hleads⟩ := ih
    exact ⟨root, hroot, hleads.tail ⟨_, hnode, hoperand⟩⟩

theorem Leads.descends {above below : Position × NodeId} (h : Leads env above below) :
    env.owner.Descends above.2 below.2 := by
  induction h with
  | refl => exact .refl
  | tail _ hstep ih =>
    obtain ⟨node, hnode, hoperand⟩ := hstep
    exact ih.tail ⟨node, hnode, Expr.mem_children_of_mem_uses hoperand⟩

theorem Leads.mem_walkFrom {above below : Position × NodeId} (h : Leads env above below)
    (hwalk : env.owner.walkFrom depth above.2 = .ok ids) : below.2 ∈ ids :=
  (Owner.mem_walkFrom_iff hwalk).2 h.descends

/-- Lists that do not overlap: what they have in common tells them apart. -/
theorem eq_of_pairwise_disjoint {α β : Type} {P : α → List β → Prop} {xs : List α}
    {parts : List (List β)} (h : List.Forall₂ P xs parts)
    (hdisjoint : parts.Pairwise List.Disjoint) {x x' : α} (hx : x ∈ xs) (hx' : x' ∈ xs)
    {b : β} (hb : ∀ part, P x part → b ∈ part) (hb' : ∀ part, P x' part → b ∈ part) :
    x = x' := by
  induction h with
  | nil => cases hx
  | @cons head part xs parts hhead hrest ih =>
    obtain ⟨hfirst, hothers⟩ := List.pairwise_cons.1 hdisjoint
    rcases List.mem_cons.1 hx with hx | hx <;> rcases List.mem_cons.1 hx' with hx' | hx'
    · exact hx.trans hx'.symm
    · obtain ⟨other, hother, hP⟩ := forall₂_mem_left hrest hx'
      exact (hfirst other hother (hb part (hx ▸ hhead)) (hb' other hP)).elim
    · obtain ⟨other, hother, hP⟩ := forall₂_mem_left hrest hx
      exact (hfirst other hother (hb' part (hx' ▸ hhead)) (hb other hP)).elim
    · exact ih hothers hx hx'

/-- In a tree, the analysis comes to a node in one position only. -/
theorem Leads.position_eq {above below below' : Position × NodeId} (h : Leads env above below)
    (h' : Leads env above below') (heq : below.2 = below'.2)
    (hwalk : env.owner.walkFrom depth above.2 = .ok ids) (hnodup : ids.Nodup) : below = below' := by
  induction depth generalizing above ids with
  | zero => cases hwalk
  | succ depth ih =>
    obtain ⟨_, node, parts, hdepth, hnode, hparts, rfl⟩ := Owner.walkFrom_eq_ok hwalk
    cases hdepth
    obtain ⟨hself, hflat⟩ := List.nodup_cons.1 hnodup
    obtain ⟨hnodups, hdisjoint⟩ := List.nodup_flatten.1 hflat
    -- The node itself is not found below its operands.
    have hbelow : ∀ {operand found : Position × NodeId}, operand ∈ node.expr.uses above.1 →
        Leads env operand found →
        ∃ part ∈ parts, env.owner.walkFrom depth operand.2 = .ok part ∧ found.2 ∈ part := by
      intro operand found hoperand hfound
      obtain ⟨part, hpart, hwalk'⟩ :=
        forall₂_mem_left hparts (Expr.mem_children_of_mem_uses hoperand)
      exact ⟨part, hpart, hwalk', hfound.mem_walkFrom hwalk'⟩
    have hne : ∀ {operand found : Position × NodeId}, operand ∈ node.expr.uses above.1 →
        Leads env operand found → found.2 ≠ above.2 := by
      intro operand found hoperand hfound hsame
      obtain ⟨part, hpart, -, hmem⟩ := hbelow hoperand hfound
      exact hself (List.mem_flatten.2 ⟨part, hpart, hsame ▸ hmem⟩)
    rcases h.cases_head with rfl | ⟨operand, ⟨found, hfound, hoperand⟩, hrest⟩ <;>
      rcases h'.cases_head with rfl | ⟨operand', ⟨found', hfound', hoperand'⟩, hrest'⟩
    · rfl
    · cases hnode.symm.trans hfound'
      exact absurd heq.symm (hne hoperand' hrest')
    · cases hnode.symm.trans hfound
      exact absurd heq (hne hoperand hrest)
    · cases hnode.symm.trans hfound
      cases hnode.symm.trans hfound'
      rcases node.expr.uses_eq above.1 with hnil | huses
      · rw [hnil] at hoperand
        cases hoperand
      rw [← huses, List.forall₂_map_left_iff] at hparts
      obtain rfl : operand = operand' := eq_of_pairwise_disjoint hparts hdisjoint hoperand hoperand'
          (fun part hpart => Leads.mem_walkFrom hrest hpart)
          fun part hpart => heq ▸ Leads.mem_walkFrom hrest' hpart
      obtain ⟨part, hpart, hwalk', -⟩ := hbelow hoperand hrest
      exact ih hrest hrest' hwalk' (hnodups part hpart)

section Above

variable {owner : Owner} {root child above above' : NodeId} {node node' : Node}

theorem root_not_mem_children (hwalk : owner.walkFrom depth root = .ok ids) (hnodup : ids.Nodup)
    (habove : above ∈ ids) (hnode : owner.node above = .ok node) :
    root ∉ node.expr.children := by
  intro hchild
  obtain ⟨below, rootNode, parts, rfl, hroot, hparts, rfl⟩ := Owner.walkFrom_eq_ok hwalk
  refine (List.nodup_cons.1 hnodup).1 (List.mem_flatten.2 ?_)
  rcases List.mem_cons.1 habove with rfl | habove
  · cases hroot.symm.trans hnode
    obtain ⟨part, hpart, hwalk'⟩ := forall₂_mem_left hparts hchild
    exact ⟨part, hpart, (Owner.mem_walkFrom_iff hwalk').2 .refl⟩
  · obtain ⟨part, hpart, habove⟩ := List.mem_flatten.1 habove
    obtain ⟨operand, -, hwalk'⟩ := forall₂_mem_right hparts hpart
    have hdescends := (Owner.mem_walkFrom_iff hwalk').1 habove
    exact ⟨part, hpart,
      (Owner.mem_walkFrom_iff hwalk').2 (hdescends.tail ⟨node, hnode, hchild⟩)⟩

/-- In a tree, a node is an operand of one node only. -/
theorem above_eq_of_mem_children (hwalk : owner.walkFrom depth root = .ok ids) (hnodup : ids.Nodup)
    (habove : above ∈ ids) (habove' : above' ∈ ids) (hnode : owner.node above = .ok node)
    (hnode' : owner.node above' = .ok node') (hchild : child ∈ node.expr.children)
    (hchild' : child ∈ node'.expr.children) : above = above' := by
  induction depth generalizing root ids with
  | zero => cases hwalk
  | succ depth ih =>
    obtain ⟨_, rootNode, parts, hdepth, hroot, hparts, rfl⟩ := Owner.walkFrom_eq_ok hwalk
    cases hdepth
    obtain ⟨hnodups, hdisjoint⟩ := List.nodup_flatten.1 (List.nodup_cons.1 hnodup).2
    -- What is found below an operand has its own operands there.
    have hbelow : ∀ {a : NodeId} {found : Node}, a ∈ parts.flatten →
      owner.node a = .ok found →
        child ∈ found.expr.children →
        ∃ operand ∈ rootNode.expr.children, ∃ part ∈ parts,
          owner.walkFrom depth operand = .ok part ∧ a ∈ part ∧ child ∈ part := by
      intro a found ha hfound hchild
      obtain ⟨part, hpart, ha⟩ := List.mem_flatten.1 ha
      obtain ⟨operand, hoperand, hwalk'⟩ := forall₂_mem_right hparts hpart
      have hdescends := (Owner.mem_walkFrom_iff hwalk').1 ha
      exact ⟨operand, hoperand, part, hpart, hwalk', ha,
        (Owner.mem_walkFrom_iff hwalk').2 (hdescends.tail ⟨found, hfound, hchild⟩)⟩
    have hsame : ∀ {operand operand' : NodeId} {part part' : List NodeId},
      operand ∈ rootNode.expr.children →
        operand' ∈ rootNode.expr.children → owner.walkFrom depth operand = .ok part →
        owner.walkFrom depth operand' = .ok part' → child ∈ part → child ∈ part' →
        operand = operand' := by
      intro operand operand' part part' hoperand hoperand' hwalk' hwalk'' hmem hmem'
      refine eq_of_pairwise_disjoint hparts hdisjoint hoperand hoperand' (b := child)
        (fun other hother => ?_) fun other hother => ?_
      · cases hwalk'.symm.trans hother
        exact hmem
      · cases hwalk''.symm.trans hother
        exact hmem'
    -- A direct operand of the root is found below no other operand, and not below itself.
    have hdirect : child ∈ rootNode.expr.children →
      ∀ {a : NodeId} {found : Node}, a ∈ parts.flatten →
        owner.node a = .ok found → child ∉ found.expr.children := by
      intro hoperand a found ha hfound hmem
      obtain ⟨operand, hoperand', part, hpart, hwalk', ha, hbelow⟩ := hbelow ha hfound hmem
      obtain ⟨own, -, hown⟩ := forall₂_mem_left hparts hoperand
      cases hsame hoperand hoperand' hown hwalk' ((Owner.mem_walkFrom_iff hown).2 .refl) hbelow
      exact root_not_mem_children hwalk' (hnodups part hpart) ha hfound hmem
    rcases List.mem_cons.1 habove with heq | hinner <;> rcases List.mem_cons.1 habove'
      with heq' | hinner'
    · exact heq.trans heq'.symm
    · cases (heq ▸ hroot).symm.trans hnode
      exact absurd hchild' (hdirect hchild hinner' hnode')
    · cases (heq' ▸ hroot).symm.trans hnode'
      exact absurd hchild (hdirect hchild' hinner hnode)
    · obtain ⟨operand, hoperand, part, hpart, hwalk', hmem, hbelow₁⟩ :=
        hbelow hinner hnode hchild
      obtain ⟨operand', hoperand', part', hpart', hwalk'', hmem', hbelow₂⟩ :=
        hbelow hinner' hnode' hchild'
      cases hsame hoperand hoperand' hwalk' hwalk'' hbelow₁ hbelow₂
      cases hwalk'.symm.trans hwalk''
      exact ih hwalk' (hnodups part hpart) hmem hmem'
end Above

/-- A node that the analysis comes to is an operand of one node only. -/
def Setting.Treelike (X : Setting) : Prop :=
  ∀ ⦃position position' above above' node node' child⦄, X.visits position above →
    X.visits position' above' →
    X.env.node above = .ok node → X.env.node above' = .ok node' →
    child ∈ node.expr.children →
    child ∈ node'.expr.children → above = above'

/-- In a tree, the position of a node is determined. -/
theorem Traverses.position_eq {root : NodeId} {position' : Position}
    (h : Traverses env [root] position id) (h' : Traverses env [root] position' id)
    (hwalk : env.owner.walkFrom depth root = .ok ids) (hnodup : ids.Nodup) :
    position = position' := by
  obtain ⟨_, hroot, hleads⟩ := h.leads
  obtain ⟨_, hroot', hleads'⟩ := h'.leads
  cases List.mem_singleton.1 hroot
  cases List.mem_singleton.1 hroot'
  exact congrArg Prod.fst (hleads.position_eq hleads' rfl hwalk hnodup)

theorem mem_walk_of_traverses {root : NodeId}
    (h : Traverses env [root] position id) (hwalk : env.owner.walkFrom depth root = .ok ids) :
    id ∈ ids := by
  obtain ⟨_, hroot, hleads⟩ := h.leads
  cases List.mem_singleton.1 hroot
  exact hleads.mem_walkFrom hwalk

theorem treelike_ofFunction {function : Function}
    (hwalk : env.owner.walkFrom depth function.body = .ok ids) (hnodup : ids.Nodup) :
    (Setting.ofFunction env function).Treelike := by
  intro position position' above above' node node' child hvisits hvisits' hnode hnode'
    hchild hchild'
  exact above_eq_of_mem_children hwalk hnodup (mem_walk_of_traverses hvisits hwalk)
    (mem_walk_of_traverses hvisits' hwalk) hnode hnode' hchild hchild'

/-- Along the operands of the nodes that are visited, an induction ends. -/
theorem Setting.Acyclic.induction {X : Setting} (h : X.Acyclic) (hclosed : X.Closed)
    {P : Position → NodeId → Prop} (hstep : ∀ position id, X.visits position id →
      (∀ node, X.env.node id = .ok node →
        ∀ operand ∈ node.expr.uses position, P operand.1 operand.2) →
      P position id) {id : NodeId} (hvisits : X.visits position id) :
    P position id := by
  obtain ⟨S, rank, hS, hrank⟩ := h
  induction hn : rank id using Nat.strong_induction_on generalizing position id with
  | _ n ih =>
    subst hn
    refine hstep position id hvisits fun node hnode operand hoperand => ?_
    have hchild := Expr.mem_children_of_mem_uses hoperand
    obtain ⟨-, hlt⟩ := hrank id node (hS _ _ hvisits) hnode operand.2 hchild
    exact ih _ hlt (hclosed _ _ _ hvisits hnode operand hoperand) rfl

end Flow
end Regions
