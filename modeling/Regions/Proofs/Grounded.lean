import Regions.Flow.Loop
import Regions.Proofs.Bodies

/-!
# Grounded nodes

Where operands come before the nodes that use them, whatever follows operands comes to an end.

* `Grounded`: nodes that are closed under operands, which come before;
* `Spans.exists_walk`: a walk over trees comes to each node once;
* `Grounded.exists_placePath?`, `Grounded.exists_loopEffects`: what is read off such nodes.
-/

namespace Regions

variable {nodes : Arena Node} {id : NodeId}

/-- Nodes that are there, with operands among them that come before. -/
def Grounded (nodes : Arena Node) (S : NodeId → Prop) : Prop :=
  ∀ id, S id → ∃ node, nodes.get? id = some node ∧
    ∀ child ∈ node.expr.children, S child ∧ child.index < id.index

theorem Spans.grounded {first last : Nat} {ids : List NodeId} (h : Spans nodes first ids last) :
    Grounded nodes fun id => first ≤ id.index ∧ id.index < last := by
  intro id hid
  obtain ⟨node, hnode, hchildren⟩ := h.exists_node hid.1 hid.2
  refine ⟨node, hnode, fun child hchild => ?_⟩
  obtain ⟨hfirst, hlt⟩ := hchildren child hchild
  exact ⟨⟨hfirst, by omega⟩, hlt⟩

/-- A walk over trees in the order of evaluation comes to each node once. -/
theorem Spans.exists_walk {owner : Owner} {first last : Nat} {ids : List NodeId}
    (h : Spans owner.nodes first ids last) {depth : Nat} (hdepth : last ≤ depth) :
    ∃ parts, ids.mapM (owner.walkFrom depth) = .ok parts ∧ parts.flatten.Nodup ∧
      ∀ id ∈ parts.flatten, first ≤ id.index ∧ id.index < last := by
  induction h generalizing depth with
  | nil => exact ⟨[], rfl, List.nodup_nil, by simp⟩
  | @cons first last root ids node hroot below rest ihbelow ihrest =>
    have hfirst := below.le
    have hlast := rest.le
    obtain ⟨depth, rfl⟩ : ∃ d, depth = d + 1 := ⟨depth - 1, by omega⟩
    have hbelow : root.index ≤ depth := by omega
    obtain ⟨under, hunder, hnodup, hbounds⟩ := ihbelow hbelow
    obtain ⟨others, hothers, hnodup', hbounds'⟩ := ihrest hdepth
    have hwalk : owner.walkFrom (depth + 1) root = .ok (root :: under.flatten) := by
      simp only [Owner.walkFrom, Owner.node, hroot, hunder, bind, Except.bind, pure, Except.pure]
    refine ⟨_, mapM_ok_cons_iff.2 ⟨_, _, hwalk, hothers, rfl⟩, ?_, ?_⟩
    · rw [List.flatten_cons, List.cons_append, List.nodup_cons, List.nodup_append]
      refine ⟨fun hmem => ?_, hnodup, hnodup', fun a ha b hb heq => ?_⟩
      · rcases List.mem_append.1 hmem with hmem | hmem
        · exact Nat.lt_irrefl _ (hbounds root hmem).2
        · exact Nat.lt_irrefl _ (hbounds' root hmem).1
      · subst heq
        have := (hbounds a ha).2
        have := (hbounds' a hb).1
        omega
    · intro id hid
      rcases List.mem_append.1 (List.flatten_cons ▸ hid) with hid | hid
      · rcases List.mem_cons.1 hid with rfl | hid
        · exact ⟨hfirst, hlast⟩
        · have := hbounds id hid
          omega
      · have := hbounds' id hid
        omega

variable {owner : Owner} {S : NodeId → Prop} {depth : Nat}

theorem Grounded.node (h : Grounded owner.nodes S) (hid : S id) :
    ∃ node, owner.node id = .ok node ∧
    owner.nodes.get? id = some node ∧ ∀ child ∈ node.expr.children, S child ∧
    child.index < id.index := by
  obtain ⟨node, hnode, hchildren⟩ := h id hid
  exact ⟨node, by rw [Owner.node, hnode], hnode, hchildren⟩

/-- A walk from such a node ends, and meets only such nodes. -/
theorem Grounded.exists_walkFrom (h : Grounded owner.nodes S) (hid : S id)
    (hdepth : id.index < depth) :
    ∃ ids, owner.walkFrom depth id = .ok ids ∧ ∀ other ∈ ids, S other := by
  induction depth generalizing id with
  | zero => omega
  | succ depth ih =>
    obtain ⟨node, hnode, -, hchildren⟩ := h.node hid
    have hbelow : ∃ parts, node.expr.children.mapM (owner.walkFrom depth) = .ok parts ∧
        ∀ part ∈ parts, ∀ other ∈ part, S other := by
      generalize node.expr.children = children at hchildren
      induction children with
      | nil => exact ⟨[], rfl, by simp⟩
      | cons child children ihchildren =>
        obtain ⟨hchild, hlt⟩ := hchildren child List.mem_cons_self
        obtain ⟨part, hpart, hmem⟩ := ih hchild (by omega)
        obtain ⟨parts, hparts, hmems⟩ := ihchildren fun other hother =>
          hchildren other (List.mem_cons_of_mem _ hother)
        refine ⟨part :: parts, mapM_ok_cons_iff.2 ⟨part, parts, hpart, hparts, rfl⟩, ?_⟩
        intro found hfound
        rcases List.mem_cons.1 hfound with rfl | hfound
        · exact hmem
        · exact hmems found hfound
    obtain ⟨parts, hparts, hmems⟩ := hbelow
    refine ⟨id :: parts.flatten, ?_, fun other hother => ?_⟩
    · simp only [Owner.walkFrom, hnode, hparts, bind, Except.bind, pure, Except.pure]
    · rcases List.mem_cons.1 hother with rfl | hother
      · exact hid
      · obtain ⟨part, hpart, hother⟩ := List.mem_flatten.1 hother
        exact hmems part hpart other hother

/-- The place of such a node can be followed. -/
theorem Grounded.exists_placePath? (h : Grounded owner.nodes S) (hid : S id)
    (hdepth : id.index < depth) : ∃ path?, Flow.placePath? owner depth id = .ok path? := by
  induction depth generalizing id with
  | zero => omega
  | succ depth ih =>
    obtain ⟨node, hnode, -, hchildren⟩ := h.node hid
    simp only [Flow.placePath?, hnode, bind, Except.bind]
    split
    · exact ⟨_, rfl⟩
    · rename_i target name hexpr
      obtain ⟨htarget, hlt⟩ := hchildren target (by simp [hexpr, Expr.children])
      obtain ⟨path?, hpath⟩ := ih htarget (by omega)
      rw [hpath]
      exact ⟨_, rfl⟩
    · exact ⟨_, rfl⟩

/-- The effects of a loop can be read off. -/
theorem Grounded.exists_loopEffects (h : Grounded owner.nodes S)
    (hsize : ∀ id, S id → id.index < owner.depth) {condition body : NodeId}
    (hcondition : S condition) (hbody : S body) :
    ∃ effects, Flow.loopEffects owner condition body = .ok effects := by
  obtain ⟨above, habove, hmem⟩ := h.exists_walkFrom hcondition (hsize condition hcondition)
  obtain ⟨below, hbelow, hmem'⟩ := h.exists_walkFrom hbody (hsize body hbody)
  -- Whatever operands are picked out, their places can be followed.
  have hnamed : ∀ select : Expr → Option NodeId,
      (∀ expr target, select expr = some target → target ∈ expr.children) →
      ∃ paths, Flow.namedPaths owner (above ++ below) select = .ok paths := by
    intro select hselect
    have hwalked : ∀ id ∈ above ++ below, S id :=
      fun id hid => (List.mem_append.1 hid).elim (hmem id) (hmem' id)
    have hselected : ∃ places, (above ++ below).filterMapM
        (fun id => do return select (← owner.node id).expr) = Except.ok places := by
      refine filterMapM_ok_of_forall fun id hid => ?_
      obtain ⟨node, hnode, -⟩ := h.node (hwalked id hid)
      exact ⟨select node.expr, by rw [hnode]; rfl⟩
    obtain ⟨places, hplaces⟩ := hselected
    have hfollowed : ∃ paths,
        places.filterMapM (Flow.placePath? owner owner.depth) = .ok paths := by
      refine filterMapM_ok_of_forall fun place hplace => ?_
      obtain ⟨id, hid, hfound⟩ := exists_of_mem_filterMapM_ok hplaces hplace
      obtain ⟨node, hnode, -, hchildren⟩ := h.node (hwalked id hid)
      rw [hnode] at hfound
      have hchild := (hchildren place (hselect _ _ (Except.ok.inj hfound))).1
      exact h.exists_placePath? hchild (hsize place hchild)
    obtain ⟨paths, hpaths⟩ := hfollowed
    refine ⟨paths, ?_⟩
    unfold Flow.namedPaths
    rw [hplaces]
    exact hpaths
  have hboth : ∀ {first second : Except Fault (List Path)}, (∃ paths, first = .ok paths) →
      (∃ paths, second = .ok paths) → ∃ effects, (do
        let assigned ← first
        let addressTaken ← second
        return ({ assigned, addressTaken } : Flow.LoopEffects)) = Except.ok effects := by
    rintro _ _ ⟨assigned, rfl⟩ ⟨addressTaken, rfl⟩
    exact ⟨⟨assigned, addressTaken⟩, rfl⟩
  unfold Flow.loopEffects
  rw [habove, hbelow]
  refine hboth (hnamed _ fun expr target heq => ?_) (hnamed _ fun expr target heq => ?_)
  all_goals
    split at heq
    · cases heq
      simp [Expr.children]
    · cases heq

end Regions
