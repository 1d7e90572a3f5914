import Regions.Proofs.Programs

/-!
# Paths of drafted variables

Whatever terms a program is drafted from, the variables of a function lie below the path of the
function.

* `Draft.Inside`, `Drafted.inside`: drafts whose variables lie below a path, and stay there;
* `Program.inside_of_mem`: the variables of every function of a program lie below its path.
-/

namespace Regions

variable {base : Path} {d d' : Draft} {decls : Declarations} {owner : Owner} {function : Function}

theorem Path.startsWith_append {p base : Path} (h : p.startsWith base = true) (q : Path) :
    (p ++ q).startsWith base = true := by
  obtain ⟨rest, rfl⟩ := startsWith_iff.1 h
  exact startsWith_iff.2 ⟨rest ++ q, by simp [Path.append_assoc]⟩

theorem Path.startsWith_self (p : Path) : p.startsWith p = true :=
  startsWith_iff.2 ⟨.whole, (Path.append_whole p).symm⟩

theorem Path.startsWith_child {p base : Path} (h : p.startsWith base = true) (name : String) :
    (p.child name).startsWith base = true :=
  Path.startsWith_append h (.single name)

/-! ## Drafts -/

/-- The expression declares or names the variable. -/
def Expr.Names (expr : Expr) (path : Path) : Prop :=
  expr = .var path ∨ ∃ value, expr = .declaration path value

/-- The scopes that are open, the variables that can be named there, and the variables of the nodes
lie below the path. -/
structure Draft.Inside (base : Path) (d : Draft) : Prop where
  scopes : ∀ scope ∈ d.innermost :: d.enclosing, scope.path.startsWith base = true
  names : ∀ scope ∈ d.innermost :: d.enclosing, ∀ (name : String) (path : Path) (ty : Ty),
    scope.names[name]? = some (path, ty) → path.startsWith base = true
  nodes : ∀ id node path, d.nodes.get? id = some node → node.expr.Names path →
    path.startsWith base = true

theorem Draft.Inside.push {node : Node} (h : d.Inside base)
    (hpath : ∀ path, node.expr.Names path → path.startsWith base = true) :
    Draft.Inside base { d with nodes := d.nodes.push node, nextSpan := none } := by
  refine ⟨h.scopes, h.names, fun id found path hfound hexpr => ?_⟩
  rw [Arena.get?_push] at hfound
  split at hfound
  · cases hfound
    exact hpath path hexpr
  · exact h.nodes id found path hfound hexpr

/-- A draft that goes on stays below the path. -/
theorem Drafted.inside (h : Drafted decls d d') (hd : d.Inside base) : d'.Inside base := by
  induction h with
  | refl => exact hd
  | noted _ _ _ ih => exact ⟨(ih hd).scopes, (ih hd).names, (ih hd).nodes⟩
  | @added d d₁ _ expr ty span hallows ih =>
    refine (ih hd).push fun path hexpr => ?_
    rcases hexpr with hexpr | ⟨value, hexpr⟩ <;> cases hexpr
    · -- A name stands for a variable of an open scope.
      obtain ⟨name, hresolve⟩ := hallows
      obtain ⟨scope, hscope, hname⟩ := List.exists_of_findSome?_eq_some hresolve
      exact (ih hd).names scope hscope name path ty hname
    · exact hallows.elim
  | @declared d d₁ _ name value valueNode span _ _ ih =>
    have hscope := (ih hd).scopes _ List.mem_cons_self
    have hbound : Draft.Inside base { d₁ with innermost := { d₁.innermost with
        names := d₁.innermost.names.insert name
            (d₁.innermost.path.child name, valueNode.ty) } } := by
      refine ⟨fun scope hmem => ?_, fun scope hmem other path ty hname => ?_, (ih hd).nodes⟩
      · rcases List.mem_cons.1 hmem with rfl | hmem
        · exact hscope
        · exact (ih hd).scopes scope (List.mem_cons_of_mem _ hmem)
      · rcases List.mem_cons.1 hmem with rfl | hmem
        · rw [Std.ExtTreeMap.getElem?_insert] at hname
          split at hname
          · cases hname
            exact Path.startsWith_child hscope name
          · exact (ih hd).names _ List.mem_cons_self other path ty hname
        · exact (ih hd).names scope (List.mem_cons_of_mem _ hmem) other path ty hname
    refine hbound.push fun path hexpr => ?_
    rcases hexpr with hexpr | ⟨value, hexpr⟩ <;> cases hexpr
    exact Path.startsWith_child hscope name
  | enclosed _ _ ih ih' =>
    -- The scope of a block lies inside the scope around it.
    refine ⟨(ih hd).scopes, (ih hd).names, (ih' ⟨fun scope hscope => ?_,
      fun scope hscope name path ty hname => ?_, (ih hd).nodes⟩).nodes⟩
    · rcases List.mem_cons.1 hscope with rfl | hscope
      · exact Path.startsWith_child ((ih hd).scopes _ List.mem_cons_self) _
      · exact (ih hd).scopes scope hscope
    · rcases List.mem_cons.1 hscope with rfl | hscope
      · cases Std.ExtTreeMap.getElem?_empty.symm.trans hname
      · exact (ih hd).names scope hscope name path ty hname

/-! ## Functions and programs -/

/-- The variables of the function lie below its path. -/
structure Owner.Inside (owner : Owner) (function : Function) : Prop where
  parameters : ∀ p ∈ function.parameters, p.path.startsWith function.path = true
  nodes : ∀ id node path, owner.nodes.get? id = some node → node.expr.Names path →
    path.startsWith function.path = true

theorem Owner.Inside.declared (h : owner.Inside function) (id : NodeId) (node : Node) (path : Path)
    (value : NodeId) (hnode : owner.nodes.get? id = some node)
    (hexpr : node.expr = .declaration path value) : path.startsWith function.path = true :=
  h.nodes id node path hnode (.inr ⟨value, hexpr⟩)

theorem inside_ofTerm {id : OwnerId} {signature : Signature} {body : Term}
    (h : Function.ofTerm decls id signature body = .ok owner)
    (hkind : owner.kind = .function function) : owner.Inside function := by
  obtain ⟨-, found, d, d', hfound, hnodes, hpath, hparameters, hbound, hbody, -⟩ :=
    yields_of_ofTerm h
  cases hkind.symm.trans hfound
  have hpaths : ∀ p ∈ function.parameters, p.path.startsWith signature.path = true := by
    rw [hparameters]
    intro p hp
    obtain ⟨parameter, -, rfl⟩ := List.mem_map.1 hp
    exact Path.startsWith_child (Path.startsWith_self _) _
  -- Binding the parameters adds no node, and opens no scope.
  have hstart : d.Inside signature.path := by
    obtain ⟨-, -, names, rfl, -, hnames⟩ := yields_bindParameters hbound
    refine ⟨fun scope hscope => ?_, fun scope hscope name path ty hname => ?_,
      fun _ _ _ hnode => by cases hnode⟩
    · obtain rfl := List.mem_singleton.1 hscope
      exact Path.startsWith_self signature.path
    · obtain rfl := List.mem_singleton.1 hscope
      rcases hnames name _ hname with hnone | ⟨p, hp, -, hpath⟩
      · simp [Draft.start] at hnone
      · cases hpath
        exact hpaths p hp
  have hend := (makes_draftAt decls body none d _ _ hbody).1.inside hstart
  rw [← hpath] at hpaths hend
  exact ⟨hpaths, by rw [hnodes]; exact hend.nodes⟩

/-- The variables of every function of a program lie below its path. -/
theorem Program.inside_of_mem {items : List Item} {assembly : Assembly}
    (h : ofItems items = .ok assembly) (howner : owner ∈ assembly.program.owners)
    (hkind : owner.kind = .function function) : owner.Inside function := by
  obtain ⟨before, signature, body, hdrafted, -⟩ :=
    ((traced_ofItems h).bodies owner howner function hkind).drafted
  exact inside_ofTerm hdrafted hkind

end Regions
