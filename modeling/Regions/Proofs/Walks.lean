import Mathlib.Logic.Relation
import Regions.Flow.Loop
import Regions.Proofs.Bodies

/-!
# Walks over bodies

The walk from a node lists the nodes below it. A loop reads off such walks which variables it may
change.

* `Owner.Descends`: a node is found below another one;
* `Owner.mem_walkFrom_iff`: the walk from a node lists what is below it;
* `Scans`: the nodes that a loop looks at;
* `mem_assigned_iff`, `mem_addressTaken_iff`: what a loop finds there.
-/

namespace Regions

namespace Owner

variable {owner : Owner} {depth : Nat} {id : NodeId} {ids : List NodeId}

/-- A walk lists the node, and then the walks of its operands. -/
theorem walkFrom_eq_ok (h : owner.walkFrom depth id = .ok ids) :
    ∃ below node parts, depth = below + 1 ∧ owner.node id = .ok node ∧
      List.Forall₂
      (fun child part => owner.walkFrom below child = .ok part) node.expr.children parts ∧
      ids = id :: parts.flatten := by
  cases depth with
  | zero => cases h
  | succ below =>
    obtain ⟨node, hnode, h⟩ := except_bind_eq_ok h
    obtain ⟨parts, hparts, h⟩ := except_bind_eq_ok h
    cases h
    exact ⟨below, node, parts, rfl, hnode, forall₂_of_mapM_ok hparts, rfl⟩

theorem exists_walkFrom_child (h : owner.walkFrom depth id = .ok ids) {node : Node}
    (hnode : owner.node id = .ok node) {child : NodeId} (hchild : child ∈ node.expr.children) :
    ∃ below part, below < depth ∧ owner.walkFrom below child = .ok part := by
  obtain ⟨below, found, parts, rfl, hfound, hparts, -⟩ := walkFrom_eq_ok h
  cases hnode.symm.trans hfound
  obtain ⟨part, -, hpart⟩ := forall₂_mem_left hparts hchild
  exact ⟨below, part, Nat.lt_succ_self below, hpart⟩

/-- The second node is the first one, or is among its operands, or among theirs, and so on. -/
def Descends (owner : Owner) : NodeId → NodeId → Prop :=
  Relation.ReflTransGen fun above below => ∃ node, owner.node above = .ok node ∧
    below ∈ node.expr.children

/-- The walk from a node lists what is below it. -/
theorem mem_walkFrom_iff (h : owner.walkFrom depth id = .ok ids) {below : NodeId} :
    below ∈ ids ↔ owner.Descends id below := by
  constructor
  · intro hmem
    induction depth generalizing id ids with
    | zero => cases h
    | succ depth ih =>
      obtain ⟨_, node, parts, hdepth, hnode, hparts, rfl⟩ := walkFrom_eq_ok h
      cases hdepth
      rcases List.mem_cons.1 hmem with rfl | hmem
      · exact .refl
      · obtain ⟨part, hpart, hmem⟩ := List.mem_flatten.1 hmem
        obtain ⟨child, hchild, hwalk⟩ := forall₂_mem_right hparts hpart
        exact .head ⟨node, hnode, hchild⟩ (ih hwalk hmem)
  · intro hdescends
    induction hdescends using Relation.ReflTransGen.head_induction_on generalizing depth ids with
    | refl =>
      obtain ⟨_, _, _, _, _, _, rfl⟩ := walkFrom_eq_ok h
      exact List.mem_cons_self
    | head hstep _ ih =>
      obtain ⟨node, hnode, hchild⟩ := hstep
      obtain ⟨_, found, parts, _, hfound, hparts, rfl⟩ := walkFrom_eq_ok h
      cases hnode.symm.trans hfound
      obtain ⟨part, hpart, hwalk⟩ := forall₂_mem_left hparts hchild
      exact List.mem_cons_of_mem _ (List.mem_flatten.2 ⟨part, hpart, ih hwalk⟩)

end Owner

namespace Flow

variable {owner : Owner} {id condition body : NodeId} {node : Node} {effects : LoopEffects}
  {path : Path}

theorem mem_namedPaths {ids : List NodeId} {select : Expr → Option NodeId} {paths : List Path}
    (h : namedPaths owner ids select = .ok paths) (hid : id ∈ ids)
    (hnode : owner.nodes.get? id = some node) {place : NodeId}
    (hselect : select node.expr = some place) {x m : Path} (hnames : Names owner.nodes place x m) :
    x ++ m ∈ paths := by
  obtain ⟨places, hplaces, hpaths⟩ := except_bind_eq_ok h
  have hplace : place ∈ places := by
    refine mem_of_filterMapM_ok hplaces hid fun place? hfound => ?_
    obtain ⟨node', hnode', hfound⟩ := except_bind_eq_ok hfound
    cases (Names.node_eq hnode).symm.trans hnode'
    cases hfound
    exact hselect
  exact mem_of_filterMapM_ok hpaths hplace fun path? hpath => hnames.placePath? hpath

/-- Of the nodes that are looked at, those that are selected name the paths. -/
theorem mem_namedPaths_iff {ids : List NodeId} {select : Expr → Option NodeId} {paths : List Path}
    (h : namedPaths owner ids select = .ok paths) :
    path ∈ paths ↔ ∃ id ∈ ids, ∃ node place, owner.node id = .ok node ∧
    select node.expr = some place ∧ placePath? owner owner.depth place = .ok (some path) := by
  obtain ⟨places, hplaces, hpaths⟩ := except_bind_eq_ok h
  constructor
  · intro hpath
    obtain ⟨place, hplace, hfound⟩ := exists_of_mem_filterMapM_ok hpaths hpath
    obtain ⟨id, hid, hselect⟩ := exists_of_mem_filterMapM_ok hplaces hplace
    obtain ⟨node, hnode, hselect⟩ := except_bind_eq_ok hselect
    exact ⟨id, hid, node, place, hnode, Except.ok.inj hselect, hfound⟩
  · rintro ⟨id, hid, node, place, hnode, hselect, hfound⟩
    have hplace : place ∈ places := by
      refine mem_of_filterMapM_ok hplaces hid fun place? hplace => ?_
      rw [hnode] at hplace
      exact (Except.ok.inj hplace).symm.trans hselect
    refine mem_of_filterMapM_ok hpaths hplace fun path? hpath => ?_
    rw [hfound] at hpath
    exact (Except.ok.inj hpath).symm

/-- The loop looks at the node. -/
def Scans (owner : Owner) (condition body id : NodeId) : Prop :=
  owner.Descends condition id ∨ owner.Descends body id

theorem Scans.trans {below : NodeId} (h : Scans owner condition body id)
    (hbelow : owner.Descends id below) : Scans owner condition body below :=
  h.imp (fun h => h.trans hbelow) fun h => h.trans hbelow

/-- A loop that another one looks at only looks at what that one does. -/
theorem Scans.inner {condition' body' below : NodeId} (h : Scans owner condition body id)
    (hnode : owner.node id = .ok node) (hexpr : node.expr = .loop condition' body')
    (hbelow : Scans owner condition' body' below) : Scans owner condition body below := by
  have hchild : ∀ child, child = condition' ∨ child = body' → owner.Descends id child := by
    intro child hchild
    refine .single ⟨node, hnode, ?_⟩
    simpa [hexpr, Expr.children] using hchild
  rcases hbelow with hbelow | hbelow
  · exact h.trans ((hchild condition' (.inl rfl)).trans hbelow)
  · exact h.trans ((hchild body' (.inr rfl)).trans hbelow)

theorem loopEffects_eq_ok (h : loopEffects owner condition body = .ok effects) :
    ∃ ids, (∀ id, id ∈ ids ↔ Scans owner condition body id) ∧ namedPaths owner ids (fun
        | .assignment target _ => some target
        | _ => none) = .ok effects.assigned ∧
      namedPaths owner ids (fun
        | .addressOf target => some target
        | _ => none) = .ok effects.addressTaken := by
  obtain ⟨walk, hwalk, h⟩ := except_bind_eq_ok h
  obtain ⟨walk', hwalk', h⟩ := except_bind_eq_ok h
  obtain ⟨assigned, hassigned, h⟩ := except_bind_eq_ok h
  obtain ⟨addressTaken, haddressTaken, h⟩ := except_bind_eq_ok h
  cases h
  refine ⟨walk ++ walk', fun id => ?_, hassigned, haddressTaken⟩
  rw [List.mem_append, Owner.mem_walkFrom_iff hwalk, Owner.mem_walkFrom_iff hwalk']
  rfl

theorem mem_assigned_iff (h : loopEffects owner condition body = .ok effects) :
    path ∈ effects.assigned ↔ ∃ id node target value, Scans owner condition body id ∧
      owner.node id = .ok node ∧ node.expr = .assignment target value ∧
      placePath? owner owner.depth target = .ok (some path) := by
  obtain ⟨ids, hids, hassigned, -⟩ := loopEffects_eq_ok h
  rw [mem_namedPaths_iff hassigned]
  constructor
  · rintro ⟨id, hid, node, target, hnode, hselect, hpath⟩
    split at hselect
    · rename_i found value hexpr
      cases hselect
      exact ⟨id, node, target, value, (hids id).1 hid, hnode, hexpr, hpath⟩
    · cases hselect
  · rintro ⟨id, node, target, value, hid, hnode, hexpr, hpath⟩
    exact ⟨id, (hids id).2 hid, node, target, hnode, by rw [hexpr], hpath⟩

theorem mem_addressTaken_iff (h : loopEffects owner condition body = .ok effects) :
    path ∈ effects.addressTaken ↔ ∃ id node target, Scans owner condition body id ∧
      owner.node id = .ok node ∧ node.expr = .addressOf target ∧
      placePath? owner owner.depth target = .ok (some path) := by
  obtain ⟨ids, hids, -, haddressTaken⟩ := loopEffects_eq_ok h
  rw [mem_namedPaths_iff haddressTaken]
  constructor
  · rintro ⟨id, hid, node, target, hnode, hselect, hpath⟩
    split at hselect
    · rename_i found hexpr
      cases hselect
      exact ⟨id, node, target, (hids id).1 hid, hnode, hexpr, hpath⟩
    · cases hselect
  · rintro ⟨id, node, target, hid, hnode, hexpr, hpath⟩
    exact ⟨id, (hids id).2 hid, node, target, hnode, by rw [hexpr], hpath⟩

end Flow
end Regions
