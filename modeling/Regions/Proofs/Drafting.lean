import Regions.Proofs.Drafting.Sites

/-!
# Drafting bodies

A body that is drafted from a plain term is a tree of fitting nodes, and its variables do not
overlap.

* `Term.Plain`: terms that share no nodes and go through no reference;
* `Orderly`: the nodes fit, as far as this does not depend on variables;
* `Grafts`: a step adds trees and keeps the nodes in order;
* `grafts_draftAt`: drafting a plain term adds one tree.
-/

namespace Regions

/-! ## Plain terms -/

namespace Term

/-- The term names a variable, or a member of one. -/
def Place : Term → Prop
  | .var _ => True
  | .member target _ => target.Place
  | .spanned _ term | .spanNext _ term => term.Place
  | _ => False

mutual

/-- The term has a tree of nodes, goes through no reference, gives each member of a struct literal
once, and declares only such names. -/
def Plain (names : String → Prop) : Term → Prop
  | .literal _ | .var _ | .newDefault _ | .breakLoop | .continueLoop => True
  | .addressOf target => target.Place
  | .member target _ => target.Plain names
  | .newWith initializer => initializer.Plain names
  | .record _ fields => (fields.map Prod.fst).Nodup ∧ PlainFields names fields
  | .unary _ operand => operand.Plain names
  | .binary _ lhs rhs => lhs.Plain names ∧ rhs.Plain names
  | .call _ arguments => PlainList names arguments
  | .declare name value => names name ∧ value.Plain names
  | .assign target value => target.Place ∧ value.Plain names
  | .cond condition positive negative =>
    condition.Plain names ∧ positive.Plain names ∧ PlainOption names negative
  | .loop condition body => condition.Plain names ∧ body.Plain names
  | .block statements => PlainList names statements
  | .spanned _ term | .spanNext _ term => term.Plain names
  | .dereference _ | .index _ _ | .node _ | .labelled _ _ | .shared _ | .after _ _ => False

def PlainList (names : String → Prop) : List Term → Prop
  | [] => True
  | term :: terms => term.Plain names ∧ PlainList names terms

def PlainFields (names : String → Prop) : List (String × Term) → Prop
  | [] => True
  | (_, term) :: fields => term.Plain names ∧ PlainFields names fields

def PlainOption (names : String → Prop) : Option Term → Prop
  | none => True
  | some term => term.Plain names

end

theorem Place.plain {names : String → Prop} {term : Term} (h : term.Place) :
    term.Plain names := by
  induction term using Term.Place.induct with
  | case1 => trivial
  | case2 target name ih => exact ih h
  | case3 span term ih => exact ih h
  | case4 span term ih => exact ih h
  | case5 term =>
    cases term <;> simp_all [Place]

end Term

/-! ## Steps that add trees -/

section Orderly

variable {decls : Declarations} {parameters : List Parameter}

/-- The nodes fit, but for those that name variables, and no variable has the name of a block. -/
structure Orderly (decls : Declarations) (parameters : List Parameter) (nodes : Arena Node) :
    Prop where
  fitting : ∀ id node, nodes.get? id = some node → (∃ x, node.expr = .var x) ∨
    Fitting decls parameters nodes node.expr node.ty
  named : ∀ id node x value, nodes.get? id = some node → node.expr = .declaration x value →
    ∀ n, x.segments.getLast? ≠ some (blockName n)

/-- From `d` to `d'` the trees below `ids` are added, and the nodes are kept in order. -/
def Grafts (decls : Declarations) (parameters : List Parameter) (ids : List NodeId) (d d' : Draft) :
    Prop :=
  Orderly decls parameters d.nodes → Orderly decls parameters d'.nodes ∧
    (∀ id node, d.nodes.get? id = some node → d'.nodes.get? id = some node) ∧
    Spans d'.nodes d.nodes.size ids d'.nodes.size

variable {d d₁ d₂ : Draft} {ids ids' : List NodeId} {id : NodeId} {expr : Expr} {ty : Ty}

theorem grafts_nextSpan (d : Draft) (span : Option Span) :
    Grafts decls parameters [] d { d with nextSpan := span } :=
  fun h => ⟨h, fun _ _ hnode => hnode, .nil _⟩

theorem Grafts.append (h : Grafts decls parameters ids d d₁)
    (h' : Grafts decls parameters ids' d₁ d₂) :
    Grafts decls parameters (ids ++ ids') d d₂ := by
  intro hd
  obtain ⟨hd₁, hext, hspans⟩ := h hd
  obtain ⟨hd₂, hext', hspans'⟩ := h' hd₁
  exact ⟨hd₂, fun id node hnode => hext' id node (hext id node hnode),
    (hspans.mono hext').append hspans'⟩

/-- The span of a node changes nothing about what is added. -/
theorem Grafts.emit {span? : Option Span} {step : DraftM NodeId}
    (h : Grafts decls parameters ids d d₁) (hemit : Yields (Term.emit span? step) d₁ id d₂) :
    ∃ d₀, d₀.nodes = d₁.nodes ∧ Grafts decls parameters ids d d₀ ∧
    Yields step d₀ id d₂ := by
  cases span? with
  | none => exact ⟨d₁, rfl, h, hemit⟩
  | some span =>
    simp only [Term.emit, yields_bind_iff, DraftM.yields_setSpan_iff] at hemit
    obtain ⟨_, _, rfl, hstep⟩ := hemit
    have hspan := h.append (grafts_nextSpan d₁ (some span))
    rw [List.append_nil] at hspan
    exact ⟨{ d₁ with nextSpan := some span }, rfl, hspan, hstep⟩

/-- A node that fits is put on top of its operands. -/
theorem Grafts.push (h : Grafts decls parameters expr.children d d₁)
    (hpush : Yields (DraftM.push expr ty) d₁ id d₂)
    (hfits : (∃ x, expr = .var x) ∨ Fitting decls parameters d₁.nodes expr ty)
    (hnamed : ∀ x value, expr = .declaration x value →
      ∀ n, x.segments.getLast? ≠ some (blockName n)) :
    Grafts decls parameters [id] d d₂ := by
  intro hd
  obtain ⟨hd₁, hextends, hspans⟩ := h hd
  obtain ⟨rfl, span, rfl⟩ := DraftM.yields_push hpush
  have hext := d₁.nodes.extendsTo_push ⟨expr, ty, span⟩
  refine ⟨⟨fun other node hnode => ?_, fun other node x value hnode => ?_⟩,
    fun other node hnode => hext other node (hextends other node hnode), ?_⟩
  · rw [Arena.get?_push] at hnode
    split at hnode
    · cases hnode
      exact hfits.imp id fun hfits => hfits.mono hext fun _ _ _ h => h
    · exact (hd₁.fitting other node hnode).imp id fun hfits => hfits.mono hext fun _ _ _ h => h
  · rw [Arena.get?_push] at hnode
    split at hnode
    · cases hnode
      exact hnamed x value
    · exact hd₁.named other node x value hnode
  · rw [Arena.size_push]
    exact .cons (get?_push_self _ _) (hspans.mono hext) (.nil _)

/-- A node that is no variable and no declaration is put on top of its operands, if it fits with its
type. -/
theorem Grafts.pushes {span? : Option Span} {step : DraftM NodeId}
    (h : Grafts decls parameters expr.children d d₁) (hpushes : Pushes decls expr step)
    (hemit : Yields (Term.emit span? step) d₁ id d₂)
    (hnamed : ∀ x value, expr ≠ .declaration x value)
    (hfits : ∀ ty, expr.Typed decls d₁.nodes ty →
      Fitting decls parameters d₁.nodes expr ty) :
    Grafts decls parameters [id] d d₂ := by
  obtain ⟨d₀, hnodes, hd₀, hstep⟩ := h.emit hemit
  obtain ⟨ty, hpush, htyped⟩ := hpushes _ _ _ hstep
  rw [hnodes] at htyped
  exact hd₀.push hpush (.inr (hnodes ▸ hfits ty htyped)) fun x value hexpr =>
    absurd hexpr (hnamed x value)

/-- A declaration is put on top of its initializer. -/
theorem Grafts.declare {name : String} {value : NodeId} (h : Grafts decls parameters [value] d d₁)
    (hdeclare : Yields (DraftM.declare name value) d₁ id d₂)
    (hname : ∀ n, name ≠ blockName n) : Grafts decls parameters [id] d d₂ := by
  obtain ⟨valueNode, hvalue, -, hpush⟩ := DraftM.yields_declare hdeclare
  have hbound : Grafts decls parameters [value] d { d₁ with innermost := { d₁.innermost with
      names :=
        d₁.innermost.names.insert name (d₁.innermost.path.child name, valueNode.ty) } } := h
  refine hbound.push hpush (.inr ⟨valueNode, hvalue⟩) fun x other hexpr n hlast => ?_
  cases hexpr
  simp only [Path.child, List.getLast?_append, List.getLast?_singleton, Option.some_or,
    Option.some.injEq] at hlast
  exact hname n hlast

theorem Grafts.block {statements : DraftM (List NodeId)}
    (hblock : Yields (DraftM.block statements) d id d₂)
    (h : ∀ ids d₁, Yields statements d.opened ids d₁ →
      Grafts decls parameters ids d.opened d₁) :
    Grafts decls parameters [id] d d₂ := by
  obtain ⟨ids, d₁, ty, hstatements, -, hpush⟩ := yields_block hblock
  have hids : Grafts decls parameters ids d { d₁ with
      innermost :=
        d.innermost, enclosing := d.enclosing, nextSpan := d.nextSpan } := h ids d₁ hstatements
  exact hids.push hpush (.inr trivial) (by simp)

/-! ## Terms -/

theorem yields_emit {span? : Option Span} {step : DraftM NodeId}
    (h : Yields (Term.emit span? step) d id d₂) :
    ∃ d₀, d₀.nodes = d.nodes ∧ Yields step d₀ id d₂ := by
  cases span? with
  | none => exact ⟨d, rfl, h⟩
  | some span =>
    simp only [Term.emit, yields_bind_iff, DraftM.yields_setSpan_iff] at h
    obtain ⟨_, _, rfl, hstep⟩ := h
    exact ⟨{ d with nextSpan := some span }, rfl, hstep⟩

theorem get?_of_yields_push (h : Yields (DraftM.push expr ty) d id d₂) :
    ∃ span, d₂.nodes.get? id = some ⟨expr, ty, span⟩ := by
  obtain ⟨rfl, span, rfl⟩ := DraftM.yields_push h
  exact ⟨span, get?_push_self _ _⟩

/-- The node of a place names a variable, or a member of one. -/
theorem names_of_draftAt {term : Term} (hplace : term.Place) {span? : Option Span}
    (h : Yields (term.draftAt decls span?) d id d₂) : ∃ x m, Names d₂.nodes id x m := by
  induction term using Term.Place.induct generalizing span? d id d₂ with
  | case1 name =>
    obtain ⟨d₀, -, h⟩ := yields_emit h
    obtain ⟨x, ty, -, hpush⟩ := DraftM.yields_var h
    obtain ⟨span, hnode⟩ := get?_of_yields_push hpush
    exact ⟨x, _, .var hnode rfl⟩
  | case2 target name ih =>
    simp only [Term.draftAt, yields_bind_iff] at h
    obtain ⟨targetId, d₁, htarget, h⟩ := h
    obtain ⟨x, m, hnames⟩ := ih hplace htarget
    obtain ⟨d₀, hnodes, h⟩ := yields_emit h
    obtain ⟨ty, hpush, -⟩ := Pushes.memberAccess decls targetId name _ _ _ h
    obtain ⟨span, hnode⟩ := get?_of_yields_push hpush
    obtain ⟨rfl, _, rfl⟩ := DraftM.yields_push hpush
    rw [← hnodes] at hnames
    exact ⟨x, _, .member hnode rfl (hnames.mono (Arena.extendsTo_push _ _))⟩
  | case3 span term ih =>
    rw [Term.draftAt] at h
    exact ih hplace h
  | case4 span term ih =>
    simp only [Term.draftAt, yields_bind_iff, DraftM.yields_setSpan_iff] at h
    obtain ⟨_, _, rfl, h⟩ := h
    exact ih hplace h
  | case5 term =>
    cases term <;> simp_all [Term.Place]

mutual

/-- Drafting a plain term adds the tree of its node. -/
theorem grafts_draftAt (term : Term) (hplain : term.Plain fun name => ∀ n, name ≠ blockName n)
    {span? : Option Span} {d d₂ : Draft} {id : NodeId}
    (h : Yields (term.draftAt decls span?) d id d₂) : Grafts decls parameters [id] d d₂ := by
  have hstart : Grafts decls parameters [] d d := grafts_nextSpan d d.nextSpan
  -- In each case: the operands, the span, then the node itself.
  cases term with
  | literal value =>
    rw [Term.draftAt] at h
    exact hstart.pushes (.literal decls value) h nofun fun _ _ => trivial
  | var name =>
    rw [Term.draftAt] at h
    obtain ⟨d₀, -, hd₀, h⟩ := hstart.emit h
    obtain ⟨x, ty, -, hpush⟩ := DraftM.yields_var h
    exact hd₀.push hpush (.inl ⟨x, rfl⟩) (by simp)
  | addressOf target =>
    simp only [Term.draftAt, yields_bind_iff] at h
    obtain ⟨targetId, d₁, htarget, h⟩ := h
    exact (grafts_draftAt target hplain.plain htarget).pushes (.addressOf decls targetId) h nofun
      fun _ _ => names_of_draftAt hplain htarget
  | member target name =>
    simp only [Term.draftAt, yields_bind_iff] at h
    obtain ⟨targetId, d₁, htarget, h⟩ := h
    exact (grafts_draftAt target hplain htarget).pushes (.memberAccess decls targetId name) h nofun
      fun _ htyped => htyped
  | newDefault ty =>
    rw [Term.draftAt] at h
    exact hstart.pushes (.newDefault decls ty) h nofun fun _ _ => trivial
  | breakLoop =>
    rw [Term.draftAt] at h
    exact hstart.pushes (.breakLoop decls) h nofun fun _ _ => trivial
  | continueLoop =>
    rw [Term.draftAt] at h
    exact hstart.pushes (.continueLoop decls) h nofun fun _ _ => trivial
  | newWith initializer =>
    simp only [Term.draftAt, yields_bind_iff] at h
    obtain ⟨value, d₁, hvalue, h⟩ := h
    exact (grafts_draftAt initializer hplain hvalue).pushes (.newWith decls value) h nofun
      fun _ _ => trivial
  | record ty fields =>
    simp only [Term.draftAt, yields_bind_iff] at h
    obtain ⟨values, d₁, hvalues, h⟩ := h
    obtain ⟨hnames, hd₁⟩ := grafts_draftFields fields hplain.2 hvalues
    have hdistinct : (values.map Prod.fst).Nodup := hnames ▸ hplain.1
    exact hd₁.pushes (.structLiteral decls ty values) h nofun fun _ _ => hdistinct
  | unary op operand =>
    simp only [Term.draftAt, yields_bind_iff] at h
    obtain ⟨operandId, d₁, hoperand, h⟩ := h
    exact (grafts_draftAt operand hplain hoperand).pushes (.unary decls op operandId) h nofun
      fun _ _ => trivial
  | binary op lhs rhs =>
    simp only [Term.draftAt, yields_bind_iff] at h
    obtain ⟨lhsId, d₁, hlhs, rhsId, d₃, hrhs, h⟩ := h
    have hoperands := (grafts_draftAt lhs hplain.1 hlhs).append (grafts_draftAt rhs hplain.2 hrhs)
    exact hoperands.pushes (.binary decls op lhsId rhsId) h nofun fun _ _ => trivial
  | call callee arguments =>
    simp only [Term.draftAt, yields_bind_iff] at h
    obtain ⟨ids, d₁, hids, h⟩ := h
    exact (grafts_draftList arguments hplain hids).pushes (.call decls _ ids) h nofun
      fun _ _ => trivial
  | declare name value =>
    simp only [Term.draftAt, yields_bind_iff] at h
    obtain ⟨valueId, d₁, hvalue, h⟩ := h
    obtain ⟨d₀, -, hd₀, h⟩ := (grafts_draftAt value hplain.2 hvalue).emit h
    exact hd₀.declare h hplain.1
  | assign target value =>
    simp only [Term.draftAt, yields_bind_iff] at h
    obtain ⟨targetId, d₁, htarget, valueId, d₃, hvalue, h⟩ := h
    have htree := grafts_draftAt target hplain.1.plain htarget
    have hvalueTree := grafts_draftAt value hplain.2 hvalue
    obtain ⟨x, m, hnames⟩ := names_of_draftAt hplain.1 htarget
    intro hd
    have hext := (hvalueTree (htree hd).1).2.1
    exact (htree.append hvalueTree).pushes (.assign decls targetId valueId) h nofun
      (fun _ htyped => ⟨⟨x, m, hnames.mono hext⟩, htyped.2⟩) hd
  | cond condition positive negative =>
    simp only [Term.draftAt, yields_bind_iff] at h
    obtain ⟨conditionId, d₁, hcondition, positiveId, d₃, hpositive, negative?, d₄,
      hnegative, h⟩ := h
    have hbranches := (grafts_draftAt positive hplain.2.1 hpositive).append
      (grafts_draftOption negative hplain.2.2 hnegative)
    exact ((grafts_draftAt condition hplain.1 hcondition).append hbranches).pushes
      (.cond decls _ _ negative?) h nofun fun _ hvoid => hvoid
  | loop condition body =>
    simp only [Term.draftAt, yields_bind_iff] at h
    obtain ⟨conditionId, d₁, hcondition, bodyId, d₃, hbody, h⟩ := h
    have hoperands := (grafts_draftAt condition hplain.1 hcondition).append
      (grafts_draftAt body hplain.2 hbody)
    exact hoperands.pushes (.loop decls conditionId bodyId) h nofun fun _ _ => trivial
  | block statements =>
    rw [Term.draftAt] at h
    obtain ⟨d₀, -, hd₀, h⟩ := hstart.emit h
    exact hd₀.append (Grafts.block h fun ids d₁ => grafts_draftList statements hplain)
  | spanned span term =>
    rw [Term.draftAt] at h
    exact grafts_draftAt term hplain h
  | spanNext span term =>
    simp only [Term.draftAt, yields_bind_iff, DraftM.yields_setSpan_iff] at h
    obtain ⟨_, _, rfl, h⟩ := h
    exact (grafts_nextSpan d (some span)).append (grafts_draftAt term hplain h)
  | dereference _ | index _ _ | node _ | labelled _ _ | shared _ | after _ _ => exact hplain.elim

theorem grafts_draftList (terms : List Term)
    (hplain : Term.PlainList (fun name => ∀ n, name ≠ blockName n) terms)
    {d d₂ : Draft} {ids : List NodeId}
    (h : Yields (Term.draftList decls terms) d ids d₂) : Grafts decls parameters ids d d₂ := by
  cases terms with
  | nil =>
    rw [Term.draftList] at h
    obtain ⟨rfl, rfl⟩ := yields_pure_iff.1 h
    exact grafts_nextSpan d d.nextSpan
  | cons term terms =>
    simp only [Term.draftList, yields_bind_iff, yields_pure_iff] at h
    obtain ⟨id, d₁, hterm, rest, _, hrest, rfl, rfl⟩ := h
    exact (grafts_draftAt term hplain.1 hterm).append (grafts_draftList terms hplain.2 hrest)

theorem grafts_draftFields (fields : List (String × Term))
    (hplain : Term.PlainFields (fun name => ∀ n, name ≠ blockName n) fields)
    {d d₂ : Draft} {values : List (String × NodeId)}
    (h : Yields (Term.draftFields decls fields) d values d₂) :
    fields.map Prod.fst = values.map Prod.fst ∧
      Grafts decls parameters (values.map Prod.snd) d d₂ := by
  cases fields with
  | nil =>
    rw [Term.draftFields] at h
    obtain ⟨rfl, rfl⟩ := yields_pure_iff.1 h
    exact ⟨rfl, grafts_nextSpan d d.nextSpan⟩
  | cons field fields =>
    obtain ⟨name, term⟩ := field
    simp only [Term.draftFields, yields_bind_iff, yields_pure_iff] at h
    obtain ⟨id, d₁, hterm, rest, _, hrest, rfl, rfl⟩ := h
    obtain ⟨hnames, hfields⟩ := grafts_draftFields fields hplain.2 hrest
    exact ⟨congrArg (name :: ·) hnames, (grafts_draftAt term hplain.1 hterm).append hfields⟩

theorem grafts_draftOption (term? : Option Term)
    (hplain : Term.PlainOption (fun name => ∀ n, name ≠ blockName n) term?)
    {d d₂ : Draft} {id? : Option NodeId} (h : Yields (Term.draftOption decls term?) d id? d₂) :
    Grafts decls parameters id?.toList d d₂ := by
  cases term? with
  | none =>
    rw [Term.draftOption] at h
    obtain ⟨rfl, rfl⟩ := yields_pure_iff.1 h
    exact grafts_nextSpan d d.nextSpan
  | some term =>
    simp only [Term.draftOption, yields_bind_iff, yields_pure_iff] at h
    obtain ⟨id, _, hterm, rfl, rfl⟩ := h
    exact grafts_draftAt term hplain hterm

end

end Orderly

/-! ## Functions -/

/-- The body that is drafted for a function from a plain term has the right shape. -/
theorem shaped_ofTerm {decls : Declarations} {ownerId : OwnerId} {signature : Signature}
    {body : Term} {owner : Owner} (h : Function.ofTerm decls ownerId signature body = .ok owner)
    (hnames : ∀ p ∈ signature.parameters, ∀ n, p.name ≠ blockName n)
    (hplain : body.Plain fun name => ∀ n, name ≠ blockName n) :
    ∃ function, owner.kind = .function function ∧ Shaped decls owner function := by
  obtain ⟨-, function, d, d', hkind, hnodes, -, hparameters, hbound, hbody, -⟩ :=
    yields_of_ofTerm h
  obtain ⟨-, -, names, rfl, -, -⟩ := yields_bindParameters hbound
  have hempty : Orderly decls function.parameters (Draft.start signature.path).nodes := by
    constructor
    · intro id node hnode
      cases hnode
    · intro id node x value hnode
      cases hnode
  obtain ⟨hend, -, hspans⟩ := grafts_draftAt body hplain hbody hempty
  have hclear : Unblurred function.parameters owner.nodes := by
    intro x site ty hx n hlast
    cases hx with
    | parameter hp =>
      rw [hparameters] at hp
      obtain ⟨parameter, hparameter, rfl⟩ := List.mem_map.1 hp
      simp only [Path.child, List.getLast?_append, List.getLast?_singleton, Option.some_or,
        Option.some.injEq] at hlast
      exact hnames parameter hparameter n hlast
    | declaration hnode hexpr _ => exact hend.named _ _ _ _ (hnodes ▸ hnode) hexpr n hlast
  have hsited := sited_ofTerm h hkind hclear
  rw [← hnodes] at hspans hend
  refine ⟨function, hkind, hspans, fun id node hnode => ?_, hsited.apart⟩
  rcases hend.fitting id node hnode with ⟨x, hexpr⟩ | hfits
  · have hvar := hsited.nodes id node hnode
    rw [hexpr] at hvar ⊢
    exact hvar
  · exact hfits

end Regions
