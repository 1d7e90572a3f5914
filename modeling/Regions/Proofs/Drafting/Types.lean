import Regions.Proofs.Programs

/-!
# Types of drafted nodes

A step of a draft checks the operands of the node that it adds, and computes the type of the node
from theirs. Whatever terms a program is drafted from, with shared nodes or without, these checks
hold of every node of it.

* `TypedNodes`, `Drafted.typed`: every node is typed, and stays so;
* `typed_ofItems`: the nodes of every function of a program are typed.
-/

namespace Regions

variable {decls : Declarations} {d d' : Draft} {expr : Expr} {ty : Ty}

theorem BlockType.mono {nodes nodes' : Arena Node} {statements : List NodeId}
    (h : BlockType nodes statements ty) (hext : nodes.ExtendsTo nodes') :
    BlockType nodes' statements ty := by
  unfold BlockType at h ⊢
  split at h
  · obtain ⟨node, hnode, hty⟩ := h
    exact ⟨node, hext _ _ hnode, hty⟩
  · exact h

/-- More nodes and more declarations leave an expression typed. -/
theorem Expr.Typed.mono {decls' : Declarations} {nodes nodes' : Arena Node}
    (h : expr.Typed decls nodes ty) (hext : nodes.ExtendsTo nodes') (hdecls : decls.Extends decls')
    (hfunctions : ∀ function, function ∈ decls.functions → function ∈ decls'.functions) :
    expr.Typed decls' nodes' ty := by
  cases expr with
  | addressOf target | dereference target | index target subscript =>
    obtain ⟨node, hnode, hty⟩ := h
    exact ⟨node, hext _ _ hnode, hty⟩
  | memberAccess target name =>
    obtain ⟨node, hnode, hmember⟩ := h
    exact ⟨node, hext _ _ hnode, hdecls.memberType? hmember⟩
  | call function arguments => exact hfunctions function h
  | block statements => exact BlockType.mono h hext
  | assignment target value =>
    obtain ⟨hvoid, targetNode, valueNode, htarget, hvalue, hty⟩ := h
    exact ⟨hvoid, targetNode, valueNode, hext _ _ htarget, hext _ _ hvalue, hty⟩
  | _ => exact h

/-- Every node of the arena is typed. -/
def TypedNodes (decls : Declarations) (nodes : Arena Node) : Prop :=
  ∀ id node, nodes.get? id = some node → node.expr.Typed decls nodes node.ty

theorem TypedNodes.push {nodes : Arena Node} {node : Node} (h : TypedNodes decls nodes)
    (hnode : node.expr.Typed decls nodes node.ty) : TypedNodes decls (nodes.push node) := by
  have hext := nodes.extendsTo_push node
  intro id found hfound
  rw [Arena.get?_push] at hfound
  split at hfound
  · cases hfound
    exact hnode.mono hext (fun _ _ hdecl => hdecl) fun _ hmem => hmem
  · exact (h id found hfound).mono hext (fun _ _ hdecl => hdecl) fun _ hmem => hmem

/-- A draft that goes on leaves every node typed. -/
theorem Drafted.typed (h : Drafted decls d d') (hd : TypedNodes decls d.nodes) :
    TypedNodes decls d'.nodes := by
  induction h with
  | refl => exact hd
  | noted _ _ _ ih => exact ih hd
  | @added d d₁ _ expr ty span hallows ih =>
    refine (ih hd).push ?_
    cases expr with
    | var => trivial
    | declaration => exact hallows.elim
    | _ => exact hallows
  | declared _ _ _ _ ih => exact (ih hd).push rfl
  | enclosed _ _ ih ih' => exact ih' (ih hd)

/-! ## Programs -/

theorem typed_ofTerm {id : OwnerId} {signature : Signature} {body : Term} {owner : Owner}
    (h : Function.ofTerm decls id signature body = .ok owner) : TypedNodes decls owner.nodes := by
  obtain ⟨-, function, d, d', -, hnodes, -, -, hbound, hbody, -⟩ := yields_of_ofTerm h
  obtain ⟨-, -, names, rfl, -, -⟩ := yields_bindParameters hbound
  have hempty : TypedNodes decls (Draft.start signature.path).nodes := by
    intro id node hnode
    cases hnode
  rw [hnodes]
  exact (makes_draftAt decls body none _ _ _ hbody).1.typed hempty

/-- The nodes of every function of a program are typed. -/
theorem Program.typed_ofItems {items : List Item} {assembly : Assembly}
    (h : ofItems items = .ok assembly) {owner : Owner} (howner : owner ∈ assembly.program.owners)
    {function : Function} (hkind : owner.kind = .function function) :
    TypedNodes assembly.declarations owner.nodes := by
  obtain ⟨before, signature, body, hdrafted, hbefore, hknown, -, -⟩ :=
    ((traced_ofItems h).bodies owner howner function hkind).drafted
  intro id node hnode
  exact (typed_ofTerm hdrafted id node hnode).mono (fun _ _ hnode => hnode) hbefore hknown

end Regions
