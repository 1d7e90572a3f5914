import Regions.Proofs.Drafting.Sites

/-!
# Variables and their names

The variables of a function are its parameters and what its body declares. Whatever term the body is
drafted from, no two of them share storage: neither the paths nor those of members are ever the
same. A node that names a variable has the path and the type of the innermost binding of the name
that was made before.

* `Owner.variablePaths`: the paths of the variables of a function;
* `Outside`: a declaration stands further out than another;
* `Innermost`: a variable is the innermost binding of a name;
* `variablePaths_apart_and_innermost`: both statements, for every function.
-/

namespace Regions

/-! ## The variables of a function -/

/-- The variable that a node declares. -/
def Node.declared? (node : Node) : Option Path :=
  match node.expr with
  | .declaration x _ => some x
  | _ => none

theorem Node.declared?_eq_some_iff {node : Node} {x : Path} :
    node.declared? = some x ↔ ∃ value, node.expr = .declaration x value := by
  unfold Node.declared?
  split <;> simp_all

/-- The paths of the parameters, and of the variables that are declared, in order. -/
def Owner.variablePaths (owner : Owner) (function : Function) : List Path :=
  function.parameters.map Parameter.path ++ owner.nodes.toList.filterMap Node.declared?

theorem Arena.getElem?_toList {α : Type} (arena : Arena α) (i : Nat) :
    arena.toList[i]? = arena.get? ⟨i⟩ := by
  simp [Arena.toList, Arena.get?]

theorem Binds.mem_variablePaths {owner : Owner} {function : Function} {x : Path}
    {site : Option NodeId} {ty : Ty} (h : Binds function.parameters owner.nodes x site ty) :
    x ∈ owner.variablePaths function := by
  cases h with
  | parameter hp => exact List.mem_append_left _ (List.mem_map_of_mem hp)
  | @declaration id value node _ _ hnode hexpr _ =>
    refine List.mem_append_right _ (List.mem_filterMap.2 ⟨node, ?_, ?_⟩)
    · exact List.mem_of_getElem? ((Arena.getElem?_toList _ _).trans hnode)
    · exact Node.declared?_eq_some_iff.2 ⟨value, hexpr⟩

/-- Where all nodes have sites, the paths of different variables are apart, and those of their
members. -/
theorem Owner.Sited.pairwise_variablePaths {owner : Owner} {function : Function}
    (h : owner.Sited function) (hnames : (function.parameters.map Parameter.name).Nodup)
    (hpaths : ∀ p ∈ function.parameters, p.path = function.path.child p.name) :
    (owner.variablePaths function).Pairwise fun x y => ∀ m n, x ++ m ≠ y ++ n := by
  have hbinds : ∀ {i node x}, owner.nodes.toList[i]? = some node → node.declared? = some x →
      ∃ ty, Binds function.parameters owner.nodes x (some ⟨i⟩) ty := by
    intro i node x hi hx
    obtain ⟨value, hexpr⟩ := Node.declared?_eq_some_iff.1 hx
    rw [Arena.getElem?_toList] at hi
    have hvalue := h.nodes _ node hi
    rw [hexpr] at hvalue
    obtain ⟨valueNode, hvalue⟩ := hvalue
    exact ⟨valueNode.ty, .declaration hi hexpr hvalue⟩
  refine List.pairwise_append.2 ⟨?_, ?_, ?_⟩
  · -- Parameters have different names.
    refine List.pairwise_map.2
      ((List.pairwise_map.1 hnames).imp_of_mem fun {p q} hp hq hne m n heq => ?_)
    have hpath := (h.apart (.parameter hp) (.parameter hq) heq).1
    rw [hpaths p hp, hpaths q hq] at hpath
    exact hne (Path.child_inj.1 hpath).2
  · -- A declaration is the site of one variable.
    refine List.pairwise_filterMap.2
      (List.pairwise_iff_getElem.2 fun i j hi hj hlt x hx y hy m n heq => ?_)
    obtain ⟨ty, hx⟩ := hbinds (List.getElem?_eq_getElem hi) hx
    obtain ⟨ty', hy⟩ := hbinds (List.getElem?_eq_getElem hj) hy
    have hsite := (h.apart hx hy heq).2.1
    simp only [Option.some.injEq, NodeId.mk.injEq] at hsite
    omega
  · intro x hx y hy m n heq
    obtain ⟨p, hp, rfl⟩ := List.mem_map.1 hx
    obtain ⟨node, hnode, hdeclared⟩ := List.mem_filterMap.1 hy
    obtain ⟨i, hi⟩ := List.mem_iff_getElem?.1 hnode
    obtain ⟨ty, hy⟩ := hbinds hi hdeclared
    cases (h.apart (.parameter hp) hy heq).2.1

/-! ## Innermost bindings -/

/-- All blocks around the one declaration are around the other too, which is in one block more. -/
def Outside (blocks : List (NodeId × Nat)) (outer inner : Nat) : Prop :=
  (∀ block ∈ blocks, OpenAt block outer → OpenAt block inner) ∧
    ∃ block ∈ blocks, OpenAt block inner ∧ ¬ OpenAt block outer

/-- The variable is the innermost binding of the name that is in scope at the node: a declaration
such that all others stand further out, or a parameter if no declaration is in scope. -/
def Innermost (body : Term) (owner : Owner) (function : Function) (name : String) (id : NodeId)
    (x : Path) (ty : Ty) : Prop :=
  (∃ site, ⟨site, name, true⟩ ∈ body.mentions 0 ∧
    Binds [] owner.nodes x (some site) ty ∧ InScope (body.openings 0) site.index id.index ∧
      ∀ other, ⟨other, name, true⟩ ∈ body.mentions 0 →
      InScope (body.openings 0) other.index id.index →
        other ≠ site → Outside (body.openings 0) other.index site.index) ∨
    (∃ p ∈ function.parameters, p.name = name ∧ p.path = x ∧ p.ty = ty) ∧
      ∀ site, ⟨site, name, true⟩ ∈ body.mentions 0 →
      ¬ InScope (body.openings 0) site.index id.index

/-- Of two declarations of a name that are in scope, the earlier one stands further out. -/
theorem Tracks.outside {blocks : List (NodeId × Nat)} {mentions : List Mention} {count : Nat}
    {d d' : Draft} (h : Tracks blocks mentions count d d') {name : String} {site other : NodeId}
    {n : Nat} (hsite : ⟨site, name, true⟩ ∈ mentions)
    (hother : ⟨other, name, true⟩ ∈ mentions) (hlt : other.index < site.index)
    (hn : site.index < n) (hscope : InScope blocks other.index n) :
    Outside blocks other.index site.index := by
  have haround : ∀ block ∈ blocks, OpenAt block other.index → OpenAt block site.index := by
    intro block hblock hopen
    obtain ⟨-, hlater⟩ := hscope.2 block hblock hopen
    obtain ⟨hopened, -⟩ := hopen
    exact ⟨by omega, by omega⟩
  exact ⟨haround, h.apart site other name hsite hother ⟨hlt, haround⟩⟩

/-- If no variable has the name of a block, different variables of a function never share a slot,
and neither do their members. Every node that names a variable has the path and the type of the
innermost binding of its name that was made before. -/
theorem variablePaths_apart_and_innermost {decls : Declarations} {ownerId : OwnerId}
    {signature : Signature} {body : Term} {owner : Owner} {function : Function}
    (h : Function.ofTerm decls ownerId signature body = .ok owner)
    (hkind : owner.kind = .function function) :
    ((∀ x ∈ owner.variablePaths function, ∀ n, x.segments.getLast? ≠ some (blockName n)) →
      (owner.variablePaths function).Pairwise fun x y => ∀ m n, x ++ m ≠ y ++ n) ∧
    ∀ id node x, owner.nodes.get? id = some node → node.expr = .var x →
      ∃ name, ⟨id, name, false⟩ ∈ body.mentions 0 ∧
      Innermost body owner function name id x node.ty := by
  constructor
  · intro hclear
    have hsited := sited_ofTerm h hkind fun x site ty hx => hclear x hx.mem_variablePaths
    obtain ⟨-, found, d, d', hfound, -, hpath, hparameters, hbound, -⟩ := yields_of_ofTerm h
    cases hkind.symm.trans hfound
    refine hsited.pairwise_variablePaths (yields_bindParameters hbound).1 fun p hp => ?_
    rw [hparameters] at hp
    obtain ⟨parameter, -, rfl⟩ := List.mem_map.1 hp
    rw [hpath]
  · intro id node x hnode hexpr
    obtain ⟨d, d', hnodes, hempty, htracks, hparameters⟩ := tracks_of_ofTerm h hkind
    rw [hnodes] at hnode
    obtain ⟨name, hname, hmeans⟩ := htracks.vars id node x (by omega) hnode hexpr
    refine ⟨name, hname, ?_⟩
    rcases hmeans with ⟨site, hsite, hbinds, hscope, hlast⟩ | ⟨hresolve, hnone⟩
    · refine .inl ⟨site, hsite, hnodes ▸ hbinds, hscope, fun other hother hother' hne => ?_⟩
      have hne : other.index ≠ site.index := fun heq => hne (congrArg NodeId.mk heq)
      have hlt := Nat.lt_of_le_of_ne (hlast other hother hother') hne
      exact htracks.outside hsite hother hlt hscope.1 hother'
    · exact .inr ⟨hparameters name x node.ty hresolve, hnone⟩

/-- The body `{ y = x; { x = &x; x }; x }` of a function with a parameter `x`, which the inner block
hides. -/
def nestedNames : Term :=
  .block [
    .declare "y" (.var "x"),
    .block [.declare "x" (.addressOf (.var "x")), .var "x"],
    .var "x"]

theorem innermost_of_nestedNames : ∃ owner function,
    Function.ofTerm ∅ ⟨0⟩ ⟨.single "f", [⟨"x", .int, true⟩], .void⟩
    nestedNames = .ok owner ∧ owner.kind = .function function ∧
    (∀ x ∈ owner.variablePaths function, ∀ n, x.segments.getLast? ≠ some (blockName n)) ∧
    (owner.variablePaths function).Pairwise (fun x y => ∀ m n, x ++ m ≠ y ++ n) ∧
    (∃ name, ⟨⟨5⟩, name, false⟩ ∈ nestedNames.mentions 0 ∧
      Innermost nestedNames owner function name ⟨5⟩
      ⟨["f", "$block_0", "$block_1", "x"]⟩ (.pointer .int)) ∧
    ∃ name, ⟨⟨7⟩, name, false⟩ ∈ nestedNames.mentions 0 ∧
      Innermost nestedNames owner function name ⟨7⟩ ⟨["f", "x"]⟩ .int := by
  have h : ∃ owner, Function.ofTerm ∅ ⟨0⟩ ⟨.single "f", [⟨"x", .int, true⟩], .void⟩
      nestedNames = .ok owner ∧
      ∃ function, owner.kind = .function function ∧
        (∀ x ∈ owner.variablePaths function, ∀ name, x.segments.getLast? = some name →
          name.toList.head? ≠ some '$') ∧
        owner.nodes.get? ⟨5⟩ =
          some ⟨.var ⟨["f", "$block_0", "$block_1", "x"]⟩, .pointer .int, ⟨0, 0⟩⟩ ∧
        owner.nodes.get? ⟨7⟩ = some ⟨.var ⟨["f", "x"]⟩, .int, ⟨0, 0⟩⟩ := by
    decide +kernel
  obtain ⟨owner, howner, function, hkind, hnames, hinner, houter⟩ := h
  obtain ⟨hapart, hresolved⟩ := variablePaths_apart_and_innermost howner hkind
  have hclear : ∀ x ∈ owner.variablePaths function, ∀ n, x.segments.getLast? ≠ some
      (blockName n) :=
    fun x hx n hlast => ne_blockName (hnames x hx _ hlast) n rfl
  exact ⟨owner, function, howner, hkind, hclear, hapart hclear, hresolved _ _ _ hinner rfl,
    hresolved _ _ _ houter rfl⟩

end Regions
