import Regions.Flow.Assignment
import Regions.Proofs.Members

/-!
# Bodies of functions

What a body looks like whose nodes are added in the order in which they are evaluated.

* `Spans`: trees of nodes that fill an interval of the arena;
* `Names`: a node names a variable, or a member of one, without going through a reference;
* `Binds`: the variables of a function, each with where it is bound and its type;
* `Fitting`: what the operands of a node have to be;
* `Shaped`: the body is a tree of fitting nodes, and variables do not overlap.
-/

namespace Regions

variable {nodes nodes' : Arena Node} {first last : Nat} {id : NodeId} {ids : List NodeId}
  {node : Node} {owner : Owner}

/-- Every node of the first arena is in the second, under the same id. -/
abbrev Arena.ExtendsTo (nodes nodes' : Arena Node) : Prop :=
  ∀ id node, nodes.get? id = some node → nodes'.get? id = some node

/-! ## Trees that fill an interval -/

/-- The trees below `ids` are, one after the other, exactly the nodes from `first` to before
`last`; each tree lists its root at its end. -/
inductive Spans (nodes : Arena Node) : Nat → List NodeId → Nat → Prop
  | nil (first : Nat) : Spans nodes first [] first
  | cons {first last : Nat} {id : NodeId} {ids : List NodeId} {node : Node}
      (hnode : nodes.get? id = some node) (below : Spans nodes first node.expr.children id.index)
      (rest : Spans nodes (id.index + 1) ids last) : Spans nodes first (id :: ids) last

namespace Spans

theorem le (h : Spans nodes first ids last) : first ≤ last := by
  induction h with
  | nil => exact Nat.le_refl _
  | cons _ _ _ ihbelow ihrest => omega

theorem eq_of_nil (h : Spans nodes first [] last) : first = last := by
  cases h
  rfl

theorem mono (h : Spans nodes first ids last) (hext : nodes.ExtendsTo nodes') :
    Spans nodes' first ids last := by
  induction h with
  | nil => exact .nil _
  | cons hnode _ _ ihbelow ihrest => exact .cons (hext _ _ hnode) ihbelow ihrest

theorem append {mid : Nat} {ids' : List NodeId} (h : Spans nodes first ids mid)
    (h' : Spans nodes mid ids' last) : Spans nodes first (ids ++ ids') last := by
  induction h with
  | nil => exact h'
  | cons hnode below _ _ ih => exact .cons hnode below (ih h')

theorem bounds (h : Spans nodes first ids last) (hid : id ∈ ids) :
    first ≤ id.index ∧ id.index < last := by
  induction h with
  | nil => cases hid
  | cons _ below rest _ ih =>
    have hbelow := below.le
    have hrest := rest.le
    rcases List.mem_cons.1 hid with rfl | hid
    · exact ⟨hbelow, hrest⟩
    · have := ih hid
      omega

theorem root (h : Spans nodes first [id] last) (hnode : nodes.get? id = some node) :
    Spans nodes first node.expr.children id.index ∧ last = id.index + 1 := by
  cases h with
  | cons hnode' below rest =>
    cases hnode.symm.trans hnode'
    cases rest
    exact ⟨below, rfl⟩

theorem head (h : Spans nodes first (id :: ids) last) :
    Spans nodes first [id] (id.index + 1) ∧ Spans nodes (id.index + 1) ids last := by
  cases h with
  | cons hnode below rest => exact ⟨.cons hnode below (.nil _), rest⟩

/-- Each tree fills a part of the interval. -/
theorem part (h : Spans nodes first ids last) (hid : id ∈ ids) :
    ∃ first', first ≤ first' ∧ id.index + 1 ≤ last ∧ Spans nodes first' [id]
    (id.index + 1) := by
  induction h with
  | nil => cases hid
  | cons hnode below rest _ ih =>
    have hbelow := below.le
    rcases List.mem_cons.1 hid with rfl | hid
    · exact ⟨_, Nat.le_refl _, rest.le, .cons hnode below (.nil _)⟩
    · obtain ⟨first', hfirst, hlast, hpart⟩ := ih hid
      exact ⟨first', by omega, hlast, hpart⟩

/-- In the interval there are nodes, and their operands stand before them, in the interval. -/
theorem exists_node (h : Spans nodes first ids last) (hfirst : first ≤ id.index)
    (hlast : id.index < last) : ∃ node, nodes.get? id = some node ∧
      ∀ child ∈ node.expr.children, first ≤ child.index ∧ child.index < id.index := by
  induction h with
  | nil => omega
  | @cons first last root ids rootNode hroot below rest ihbelow ihrest =>
    rcases Nat.lt_trichotomy id.index root.index with hlt | heq | hgt
    · exact ihbelow hfirst hlt
    · have hsame : root = id := by
        cases root
        cases id
        simp_all
      subst hsame
      exact ⟨rootNode, hroot, fun child hchild => below.bounds hchild⟩
    · obtain ⟨node, hnode, hchildren⟩ := ihrest hgt hlast
      refine ⟨node, hnode, fun child hchild => ⟨?_, (hchildren child hchild).2⟩⟩
      have := (hchildren child hchild).1
      have := below.le
      omega

theorem child (h : Spans nodes first ids last) (hfirst : first ≤ id.index)
    (hlast : id.index < last) (hnode : nodes.get? id = some node) {operand : NodeId}
    (hoperand : operand ∈ node.expr.children) :
    first ≤ operand.index ∧ operand.index < id.index := by
  obtain ⟨_, hfound, hchildren⟩ := h.exists_node hfirst hlast
  cases hfound.symm.trans hnode
  exact hchildren operand hoperand

/-- Every node in the interval is met on a walk over the trees. -/
theorem mem_walk (h : Spans owner.nodes first ids last) {depth : Nat}
    {parts : List (List NodeId)} (hwalk : ids.mapM (owner.walkFrom depth) = .ok parts)
    (hfirst : first ≤ id.index) (hlast : id.index < last) : id ∈ parts.flatten := by
  induction h generalizing depth parts with
  | nil => omega
  | @cons first last root ids rootNode hroot below rest ihbelow ihrest =>
    obtain ⟨part, others, hpart, hothers, rfl⟩ := mapM_ok_cons_iff.1 hwalk
    rw [List.flatten_cons, List.mem_append]
    rcases Nat.lt_or_ge root.index id.index with hgt | hle
    · exact .inr (ihrest hothers hgt hlast)
    · left
      cases depth with
      | zero => cases hpart
      | succ depth =>
        obtain ⟨node, hnode, hpart⟩ := except_bind_eq_ok hpart
        obtain ⟨trees, htrees, hpart⟩ := except_bind_eq_ok hpart
        cases hpart
        have hsame : rootNode = node := by
          rw [Owner.node, hroot] at hnode
          exact Except.ok.inj hnode
        subst hsame
        rcases Nat.lt_or_eq_of_le hle with hlt | heq
        · exact List.mem_cons_of_mem _ (ihbelow htrees hfirst hlt)
        · have hid : id = root := by
            cases id
            cases root
            simp_all
          rw [hid]
          exact List.mem_cons_self

end Spans

/-! ## Places without references -/

/-- The node names the member at path `m` of the variable `x`. -/
inductive Names (nodes : Arena Node) : NodeId → Path → Path → Prop
  | var {id : NodeId} {node : Node} {x : Path} (hnode : nodes.get? id = some node)
      (hexpr : node.expr = .var x) : Names nodes id x .whole
  | member {id target : NodeId} {node : Node} {name : String} {x m : Path}
      (hnode : nodes.get? id = some node) (hexpr : node.expr = .memberAccess target name)
      (htarget : Names nodes target x m) : Names nodes id x (m.child name)

namespace Names

variable {x m : Path}

theorem mono (h : Names nodes id x m) (hext : nodes.ExtendsTo nodes') : Names nodes' id x m := by
  induction h with
  | var hnode hexpr => exact .var (hext _ _ hnode) hexpr
  | member hnode hexpr _ ih => exact .member (hext _ _ hnode) hexpr ih

theorem node_eq (h : owner.nodes.get? id = some node) : owner.node id = .ok node := by
  rw [Owner.node, h]

/-- Following the node gives the path of the variable and of the member. -/
theorem placePath? (h : Names owner.nodes id x m) {depth : Nat}
    {path? : Option Path} (hpath : Flow.placePath? owner depth id = .ok path?) :
    path? = some (x ++ m) := by
  induction h generalizing depth path? with
  | var hnode hexpr =>
    cases depth with
    | zero => cases hpath
    | succ depth =>
      rw [Flow.placePath?, node_eq hnode] at hpath
      simp only [bind, Except.bind, hexpr, pure, Except.pure, Except.ok.injEq] at hpath
      rw [← hpath, Path.append_whole]
  | @member id target node name x m hnode hexpr _ ih =>
    cases depth with
    | zero => cases hpath
    | succ depth =>
      rw [Flow.placePath?, node_eq hnode] at hpath
      simp only [bind, Except.bind, hexpr] at hpath
      split at hpath
      · cases hpath
      · rename_i inner hinner
        rw [ih hinner] at hpath
        rw [Path.append_child]
        exact (Except.ok.inj hpath).symm

/-- The node can be followed, and walked over. -/
theorem exists_depth (h : Names owner.nodes id x m) :
    ∃ depth walk, Flow.placePath? owner depth id = .ok (some (x ++ m)) ∧
    owner.walkFrom depth id = .ok walk ∧
      ∀ first last, Spans owner.nodes first [id] last →
      ∀ other ∈ walk, first ≤ other.index := by
  induction h with
  | @var id node x hnode hexpr =>
    refine ⟨1, [id], ?_, ?_, fun first last hspans other hother => ?_⟩
    · simp [Flow.placePath?, node_eq hnode, hexpr, bind, Except.bind, pure, Except.pure]
    · simp [Owner.walkFrom, node_eq hnode, hexpr, Expr.children, bind, Except.bind,
        pure, Except.pure]
    · obtain rfl := List.mem_singleton.1 hother
      exact (hspans.bounds (List.mem_singleton_self _)).1
  | @member id target node name x m hnode hexpr _ ih =>
    obtain ⟨depth, walk, hpath, hwalk, hbound⟩ := ih
    refine ⟨depth + 1, id :: walk, ?_, ?_, fun first last hspans other hother => ?_⟩
    · simp [Flow.placePath?, node_eq hnode, hexpr, hpath, bind, Except.bind, pure, Except.pure,
        Path.append_child]
    · simp [Owner.walkFrom, node_eq hnode, hexpr, hwalk, Expr.children, bind, Except.bind,
        pure, Except.pure]
    · rcases List.mem_cons.1 hother with rfl | hother
      · exact (hspans.bounds (List.mem_singleton_self _)).1
      · cases hspans with
        | cons hnode' below _ =>
          cases hnode.symm.trans hnode'
          rw [hexpr] at below
          exact hbound _ _ below other hother

end Names

/-! ## Variables -/

/-- The function binds the variable `x`, as a parameter or at a declaration node, with this type. -/
inductive Binds (parameters : List Parameter) (nodes : Arena Node) :
    Path → Option NodeId → Ty → Prop
  | parameter {p : Parameter} (hmem : p ∈ parameters) : Binds parameters nodes p.path none p.ty
  | declaration {id value : NodeId} {node valueNode : Node} {x : Path}
      (hnode : nodes.get? id = some node) (hexpr : node.expr = .declaration x value)
      (hvalue : nodes.get? value = some valueNode) : Binds parameters nodes x (some id) valueNode.ty

theorem Binds.mono {parameters : List Parameter} {x : Path} {site : Option NodeId} {ty : Ty}
    (h : Binds parameters nodes x site ty) (hext : nodes.ExtendsTo nodes') :
    Binds parameters nodes' x site ty := by
  cases h with
  | parameter hmem => exact .parameter hmem
  | declaration hnode hexpr hvalue => exact .declaration (hext _ _ hnode) hexpr (hext _ _ hvalue)

/-! ## Fitting nodes -/

/-- The operands of the expression are of the right kind and type. Accesses through references do
not fit, a struct literal gives each member once, and a lone branch has no value. -/
def Fitting (decls : Declarations) (parameters : List Parameter) (nodes : Arena Node) :
    Expr → Ty → Prop
  | .var x, ty => ∃ site, Binds parameters nodes x site ty
  | .memberAccess target name, ty =>
    ∃ node, nodes.get? target = some node ∧ decls.memberType? node.ty name = .ok (some ty)
  | .addressOf target, _ => ∃ x m, Names nodes target x m
  | .assignment target value, _ =>
    (∃ x m, Names nodes target x m) ∧ ∃ targetNode valueNode,
      nodes.get? target = some targetNode ∧ nodes.get? value = some valueNode ∧
        targetNode.ty = valueNode.ty
  | .declaration _ value, _ => ∃ node, nodes.get? value = some node
  | .structLiteral fields, _ => (fields.map Prod.fst).Nodup
  | .cond _ _ negative, ty => negative = none → ty = .void
  | .dereference _, _ | .index _ _, _ => False
  | _, _ => True

theorem Fitting.mono {decls decls' : Declarations} {parameters : List Parameter} {expr : Expr}
    {ty : Ty} (h : Fitting decls parameters nodes expr ty) (hext : nodes.ExtendsTo nodes')
    (hdecls : ∀ ty name inner, decls.memberType? ty name = .ok (some inner) →
      decls'.memberType? ty name = .ok (some inner)) :
    Fitting decls' parameters nodes' expr ty := by
  cases expr with
  | var x =>
    obtain ⟨site, hbinds⟩ := h
    exact ⟨site, hbinds.mono hext⟩
  | memberAccess target name =>
    obtain ⟨node, hnode, hmember⟩ := h
    exact ⟨node, hext _ _ hnode, hdecls _ _ _ hmember⟩
  | addressOf target =>
    obtain ⟨x, m, hnames⟩ := h
    exact ⟨x, m, hnames.mono hext⟩
  | assignment target value =>
    obtain ⟨⟨x, m, hnames⟩, targetNode, valueNode, htarget, hvalue, hty⟩ := h
    exact ⟨⟨x, m, hnames.mono hext⟩, targetNode, valueNode, hext _ _ htarget,
      hext _ _ hvalue, hty⟩
  | declaration x value =>
    obtain ⟨node, hnode⟩ := h
    exact ⟨node, hext _ _ hnode⟩
  | _ => exact h

/-- The body of a function is a tree that fills its arena, of fitting nodes. Each variable is bound
once, and no variable lies inside another. -/
structure Shaped (decls : Declarations) (owner : Owner) (function : Function) : Prop where
  spans : Spans owner.nodes 0 [function.body] owner.nodes.size
  fitting : ∀ id node, owner.nodes.get? id = some node →
    Fitting decls function.parameters owner.nodes node.expr node.ty
  apart : ∀ {x y m m' : Path} {site site' : Option NodeId} {ty ty' : Ty},
    Binds function.parameters owner.nodes x site ty →
    Binds function.parameters owner.nodes y site' ty' → x ++ m = y ++ m' →
    x = y ∧ site = site' ∧ ty = ty'

namespace Shaped

variable {decls : Declarations} {function : Function} {x m : Path} {site : Option NodeId} {ty : Ty}

/-- The type of a place is the type found along its path. -/
theorem typeAlong?_of_names (h : Shaped decls owner function) (hnames : Names owner.nodes id x m)
    (hbinds : Binds function.parameters owner.nodes x site ty)
    (hnode : owner.nodes.get? id = some node) : decls.typeAlong? ty m.segments = some node.ty := by
  induction hnames generalizing node with
  | var hnode' hexpr =>
    cases hnode.symm.trans hnode'
    have hfits := h.fitting _ _ hnode
    rw [hexpr] at hfits
    obtain ⟨site', hbinds'⟩ := hfits
    obtain ⟨-, -, hty⟩ := h.apart hbinds hbinds' (rfl : _ ++ Path.whole = _ ++ Path.whole)
    rw [hty]
    rfl
  | @member id target node' name x m hnode' hexpr _ ih =>
    cases hnode.symm.trans hnode'
    have hfits := h.fitting _ _ hnode
    rw [hexpr] at hfits
    obtain ⟨targetNode, htarget, hmember⟩ := hfits
    change decls.typeAlong? ty (m.segments ++ [name]) = _
    rw [Declarations.typeAlong?_append, ih hbinds htarget]
    simp [Declarations.typeAlong?, hmember]

/-- A place names a variable of the function. -/
theorem binds_of_names (h : Shaped decls owner function) (hnames : Names owner.nodes id x m) :
    ∃ site ty, Binds function.parameters owner.nodes x site ty := by
  induction hnames with
  | @var id node x hnode hexpr =>
    have hfits := h.fitting _ _ hnode
    rw [hexpr] at hfits
    obtain ⟨site, hbinds⟩ := hfits
    exact ⟨site, _, hbinds⟩
  | member _ _ _ ih => exact ih

end Shaped
end Regions
