import Regions.Proofs.Drafting.Openings
import Std.Data.String.ToNat

/-!
# Sites of variables

Every variable of a drafted body is bound at one site, a parameter or a declaration, and the nodes
that name it have its type. The path of a variable consists of the function, the blocks around the
variable, and its name. A name that looks like a block would blur this; if there is none, variables
do not overlap either.

* `Unblurred`: no variable has the name of a block;
* `Draft.Sited`: the invariant of a draft;
* `Continues`: where new variables are bound;
* `Owner.Sited`, `Program.sited_ofItems`: the variables of the functions of a program.
-/

namespace Regions

open Std

variable {outer outer' : List Nat} {name : String} {id : NodeId} {nodes' : Arena Node} {x : Path}
  {site : Option NodeId} {scope : NameScope}

/-! ## Names of blocks -/

theorem blockName_inj {n k : Nat} : blockName n = blockName k ↔ n = k := by
  simp [blockName, Nat.repr_inj]

theorem map_blockName_inj : outer.map blockName = outer'.map blockName ↔ outer = outer' :=
  (List.map_injective_iff.2 fun _ _ h => blockName_inj.1 h).eq_iff

/-- A name that does not begin as those of blocks do. -/
theorem ne_blockName (h : name.toList.head? ≠ some '$') (n : Nat) : name ≠ blockName n := by
  rintro rfl
  simp [blockName] at h

/-- A path inside a function ends in a name, below blocks. Where it does not end in the name of a
block, the end of the path is the first segment that is none. -/
theorem blocks_append_inj {name' : String} {rest rest' : List String}
    (hname : ∀ n, name ≠ blockName n) (hname' : ∀ n, name' ≠ blockName n)
    (h : outer.map blockName ++ name :: rest = outer'.map blockName ++ name' :: rest') :
    outer = outer' ∧ name = name' ∧ rest = rest' := by
  induction outer generalizing outer' with
  | nil =>
    cases outer' with
    | nil => simpa using h
    | cons n outer' => exact absurd (List.cons.inj h).1 (hname n)
  | cons n outer ih =>
    cases outer' with
    | nil => exact absurd (List.cons.inj h).1.symm (hname' n)
    | cons k outer' =>
      obtain ⟨hhead, htail⟩ := List.cons.inj h
      obtain ⟨rfl, rfl, rfl⟩ := ih htail
      exact ⟨congrArg (· :: outer) (blockName_inj.1 hhead), rfl, rfl⟩

/-! ## Variables of a draft that grows -/

instance decidableForallNodes {nodes : Arena Node} {P : NodeId → Node → Prop}
    [∀ id node, Decidable (P id node)] :
    Decidable (∀ id node, nodes.get? id = some node → P id node) :=
  decidable_of_iff (∀ id ∈ nodes.ids, ∀ node, nodes.get? id = some node → P id node)
    ⟨fun h id node hnode =>
      h id (List.mem_map.2 ⟨id.index, List.mem_range.2 (index_lt_size hnode), rfl⟩) node hnode,
      fun h id _ => h id⟩

instance decidableForallDeclaration {expr : Expr} {P : Path → NodeId → Prop}
    [∀ x value, Decidable (P x value)] :
    Decidable (∀ x value, expr = .declaration x value → P x value) := by
  cases expr
  case declaration x value => exact decidable_of_iff (P x value) (by simp)
  all_goals exact .isTrue (by simp)

/-- The function of an owner that is one. -/
def Owner.function? (owner : Owner) : Option Function :=
  match owner.kind with
  | .function function => some function
  | .aggregate _ _ => none

theorem Owner.function?_eq_some_iff {owner : Owner} {function : Function} :
    owner.function? = some function ↔ owner.kind = .function function := by
  unfold Owner.function?
  split <;> simp_all

instance decidableExistsFunction {owner : Owner} {P : Function → Prop}
    [∀ function, Decidable (P function)] :
    Decidable (∃ function, owner.kind = .function function ∧ P function) :=
  decidable_of_iff (∃ function, owner.function? = some function ∧ P function)
    (by simp [Owner.function?_eq_some_iff])

instance decidableForallFunction {owner : Owner} {P : Function → Prop}
    [∀ function, Decidable (P function)] :
    Decidable (∀ function, owner.kind = .function function → P function) :=
  decidable_of_iff (∀ function, owner.function? = some function → P function)
    (by simp [Owner.function?_eq_some_iff])

/-- The operand of which the address is taken, or to which is assigned. -/
def Expr.aim? : Expr → Option NodeId
  | .addressOf target | .assignment target _ => some target
  | _ => none

theorem Expr.aim?_eq_some_iff {expr : Expr} {target : NodeId} : expr.aim? = some target ↔
    expr = .addressOf target ∨ ∃ value, expr = .assignment target value := by
  cases expr <;> simp [aim?]

section Sites

variable {decls : Declarations} {function : Path} {parameters : List Parameter} {ty : Ty}

/-- The initializers of declarations are there. -/
def ValuesFound (nodes : Arena Node) : Prop :=
  ∀ id node x value, nodes.get? id = some node → node.expr = .declaration x value →
    ∃ valueNode, nodes.get? value = some valueNode

/-- A variable that is bound at an old node was bound before. -/
theorem Binds.of_lt {nodes : Arena Node} {ty : Ty} (hvalues : ValuesFound nodes)
    (hext : nodes.ExtendsTo nodes')
    (h : Binds parameters nodes' x (some id) ty) (hlt : id.index < nodes.size) :
    Binds parameters nodes x (some id) ty := by
  cases h with
  | @declaration _ value node valueNode _ hnode hexpr hvalue =>
    cases hold : nodes.get? id with
    | none =>
      have := Arena.get?_eq_none_iff.1 hold
      omega
    | some old =>
      cases hnode.symm.trans (hext id old hold)
      obtain ⟨oldValue, holdValue⟩ := hvalues id node x value hold hexpr
      cases hvalue.symm.trans (hext value oldValue holdValue)
      exact .declaration hold hexpr holdValue

/-- One more node binds at most one more variable. -/
theorem Binds.of_push {nodes : Arena Node} {new : Node} {ty : Ty} (hvalues : ValuesFound nodes)
    (h : Binds parameters (nodes.push new) x site ty) : Binds parameters nodes x site ty ∨
      site = some nodes.nextId ∧ ∃ value, new.expr = .declaration x value ∧
        ∃ valueNode, (nodes.push new).get? value = some valueNode ∧ valueNode.ty = ty := by
  cases site with
  | none =>
    cases h with
    | parameter hmem => exact .inl (.parameter hmem)
  | some id =>
    by_cases hid : id = nodes.nextId
    · right
      cases h with
      | @declaration _ value node valueNode _ hnode hexpr hvalue =>
        rw [Arena.get?_push, if_pos hid] at hnode
        cases hnode
        exact ⟨congrArg some hid, value, hexpr, valueNode, hvalue, rfl⟩
    · left
      refine h.of_lt hvalues (nodes.extendsTo_push new) ?_
      cases h with
      | declaration hnode _ _ =>
        rw [Arena.get?_push, if_neg hid] at hnode
        exact index_lt_size hnode

section Declarations

variable {nodes : Arena Node} {path : Path} {value : NodeId} {valueNode : Node} {span : Span}

/-- A declaration on top of its initializer binds its own variable and no other. -/
theorem Binds.of_declaration (hvalues : ValuesFound nodes)
    (hvalue : nodes.get? value = some valueNode)
    (h : Binds parameters (nodes.push ⟨.declaration path value, .void, span⟩) x site ty) :
    Binds parameters nodes x site ty ∨
      site = some nodes.nextId ∧ x = path ∧ ty = valueNode.ty := by
  rcases h.of_push hvalues with hold | ⟨hsite, value', hexpr, node, hnode, rfl⟩
  · exact .inl hold
  · cases hexpr
    cases hnode.symm.trans (get?_push_of_get? _ hvalue)
    exact .inr ⟨hsite, rfl, rfl⟩

end Declarations

/-! ## The invariant of a draft -/

/-- No variable has the name of a block. -/
def Unblurred (parameters : List Parameter) (nodes : Arena Node) : Prop :=
  ∀ x site ty, Binds parameters nodes x site ty →
    ∀ n, x.segments.getLast? ≠ some (blockName n)

theorem Unblurred.earlier {nodes : Arena Node} (h : Unblurred parameters nodes')
    (hext : nodes.ExtendsTo nodes') : Unblurred parameters nodes :=
  fun x site ty hx => h x site ty (hx.mono hext)

/-- The path consists of the function, blocks among the first `blocks`, and a name. -/
def Located (function : Path) (blocks : Nat) (path : Path) : Prop :=
  ∃ (outer : List Nat) (name : String), (∀ n ∈ outer, n < blocks) ∧
    (∀ n, name ≠ blockName n) ∧
    path.segments = function.segments ++ (outer.map blockName ++ [name])

/-- The path of the scope consists of the function and blocks among the first `blocks`. -/
def ScopeLocated (function : Path) (blocks : Nat) (scope : NameScope) : Prop :=
  ∃ outer : List Nat, (∀ n ∈ outer, n < blocks) ∧
    scope.path.segments = function.segments ++ outer.map blockName

/-- The names of a scope are those of the variables that are bound in it. -/
structure Resolves (parameters : List Parameter) (nodes : Arena Node) (scope : NameScope) :
    Prop where
  bound : ∀ (name : String) (path : Path) (ty : Ty), scope.names[name]? = some (path, ty) →
    ∃ site, Binds parameters nodes path site ty
  known : ∀ name site ty, Binds parameters nodes (scope.path.child name) site ty →
    name ∈ scope.names

/-- What is known about a node, whatever term it comes from. -/
def Expr.Sited (parameters : List Parameter) (nodes : Arena Node) : Expr → Ty → Prop
  | .var x, ty => ∃ site, Binds parameters nodes x site ty
  | .declaration _ value, _ => ∃ valueNode, nodes.get? value = some valueNode
  | _, _ => True

/-- Every variable is bound once, and open scopes know their variables. -/
structure Draft.Sited (function : Path) (parameters : List Parameter) (d : Draft) : Prop where
  nodes : ∀ id node, d.nodes.get? id = some node → node.expr.Sited parameters d.nodes node.ty
  located : ∀ x site ty, Binds parameters d.nodes x site ty → Located function d.blocks x
  once : ∀ x site ty site' ty', Binds parameters d.nodes x site ty →
    Binds parameters d.nodes x site' ty' → site = site' ∧ ty = ty'
  scopes : ∀ scope ∈ d.innermost :: d.enclosing,
    ScopeLocated function d.blocks scope ∧ Resolves parameters d.nodes scope
  nested : (d.innermost :: d.enclosing).Pairwise fun inner outer =>
    outer.path.segments.length < inner.path.segments.length

/-- The draft goes on from `d` to `d'` in the same scope: nodes stay, and new variables are bound in
this scope or in blocks that were opened on the way. -/
structure Continues (function : Path) (parameters : List Parameter) (d d' : Draft) : Prop where
  nodes : ∀ id node, d.nodes.get? id = some node → d'.nodes.get? id = some node
  path : d'.innermost.path = d.innermost.path
  enclosing : d'.enclosing = d.enclosing
  blocks : d.blocks ≤ d'.blocks
  fresh : ∀ x id ty, Binds parameters d'.nodes x (some id) ty → d.nodes.size ≤ id.index →
    (∃ name, x = d.innermost.path.child name) ∨
      ∃ (outer : List Nat) (name : String) (n : Nat), n ∈ outer ∧ d.blocks ≤ n ∧
        x.segments = function.segments ++ (outer.map blockName ++ [name])

theorem Expr.Sited.mono {nodes : Arena Node} {expr : Expr} (h : expr.Sited parameters nodes ty)
    (hext : nodes.ExtendsTo nodes') : expr.Sited parameters nodes' ty := by
  cases expr with
  | var x =>
    obtain ⟨site, hbinds⟩ := h
    exact ⟨site, hbinds.mono hext⟩
  | declaration x value =>
    obtain ⟨valueNode, hvalue⟩ := h
    exact ⟨valueNode, hext value valueNode hvalue⟩
  | _ => exact h

theorem Located.mono {blocks blocks' : Nat} {path : Path} (h : Located function blocks path)
    (hle : blocks ≤ blocks') : Located function blocks' path := by
  obtain ⟨outer, name, houter, hname, hpath⟩ := h
  exact ⟨outer, name, fun n hn => Nat.lt_of_lt_of_le (houter n hn) hle, hname, hpath⟩

theorem ScopeLocated.mono {blocks blocks' : Nat} (h : ScopeLocated function blocks scope)
    (hle : blocks ≤ blocks') : ScopeLocated function blocks' scope := by
  obtain ⟨outer, houter, hpath⟩ := h
  exact ⟨outer, fun n hn => Nat.lt_of_lt_of_le (houter n hn) hle, hpath⟩

theorem segments_opened {d : Draft}
    (h : d.innermost.path.segments = function.segments ++ outer.map blockName) :
    d.opened.innermost.path.segments = function.segments ++ (outer ++ [d.blocks]).map
    blockName := by
  change d.innermost.path.segments ++ [blockName d.blocks] = _
  rw [h, List.map_append, List.append_assoc]
  rfl

/-- The blocks in a path inside a function are determined by the path. -/
theorem outer_eq_of_child {path : Path} {name' : String}
    (h : path.segments = function.segments ++ outer.map blockName)
    (h' : (path.child name).segments = function.segments ++ (outer'.map blockName ++ [name'])) :
    outer = outer' := by
  change path.segments ++ [name] = _ at h'
  rw [h, ← List.append_assoc] at h'
  obtain ⟨hsegments, -⟩ := List.append_inj' h' rfl
  exact map_blockName_inj.1 (List.append_cancel_left hsegments)

/-- The scope of the declaration knows its name. -/
theorem Resolves.declare (hvalues : ValuesFound nodes) (hvalue : nodes.get? value = some valueNode)
    (h : Resolves parameters nodes scope) :
    Resolves parameters (nodes.push ⟨.declaration (scope.path.child name) value, .void, span⟩)
      { scope with names := scope.names.insert name (scope.path.child name, valueNode.ty) } where
  bound := by
    intro other path ty hother
    rw [ExtTreeMap.getElem?_insert] at hother
    split at hother
    · cases hother
      exact ⟨_, .declaration (get?_push_self _ _) rfl (get?_push_of_get? _ hvalue)⟩
    · obtain ⟨site, hbound⟩ := h.bound other path ty hother
      exact ⟨site, hbound.mono (Arena.extendsTo_push _ _)⟩
  known := by
    intro other site ty hx
    rw [ExtTreeMap.mem_insert]
    rcases hx.of_declaration hvalues hvalue with hold | ⟨-, hpath, -⟩
    · exact .inr (h.known other site ty hold)
    · exact .inl (Std.compare_eq_iff_eq.2 (Path.child_inj.1 hpath).2.symm)

/-- Other scopes need not know it. -/
theorem Resolves.declareOutside (hvalues : ValuesFound nodes)
    (hvalue : nodes.get? value = some valueNode) (hpath : ∀ name, scope.path.child name ≠ path)
    (h : Resolves parameters nodes scope) :
    Resolves parameters (nodes.push ⟨.declaration path value, .void, span⟩) scope where
  bound := by
    intro name path ty hname
    obtain ⟨site, hbound⟩ := h.bound name path ty hname
    exact ⟨site, hbound.mono (Arena.extendsTo_push _ _)⟩
  known := by
    intro name site ty hx
    rcases hx.of_declaration hvalues hvalue with hold | ⟨-, heq, -⟩
    · exact h.known name site ty hold
    · exact absurd heq (hpath name)

variable {d d₁ d₂ : Draft}

namespace Draft.Sited

section

variable (h : d.Sited function parameters)

include h

theorem valuesFound : ValuesFound d.nodes := by
  intro id node x value hnode hexpr
  have hsited := h.nodes id node hnode
  rw [hexpr] at hsited
  exact hsited

theorem apart {y m m' : Path} {site' : Option NodeId} {ty ty' : Ty}
    (hx : Binds parameters d.nodes x site ty) (hy : Binds parameters d.nodes y site' ty')
    (heq : x ++ m = y ++ m') : x = y ∧ site = site' ∧ ty = ty' := by
  obtain ⟨outer, name, -, hname, hxpath⟩ := h.located x site ty hx
  obtain ⟨outer', name', -, hname', hypath⟩ := h.located y site' ty' hy
  have hsegments := congrArg Path.segments heq
  simp only [Path.segments_append, hxpath, hypath, List.append_assoc, List.append_cancel_left_eq]
    at hsegments
  obtain ⟨rfl, rfl, -⟩ := blocks_append_inj hname hname' hsegments
  obtain rfl : x = y := congrArg Path.mk (hxpath.trans hypath.symm)
  exact ⟨rfl, h.once x site ty site' ty' hx hy⟩

theorem added {expr : Expr} {ty : Ty} (span : Span) (hallows : d.Allows decls expr ty) :
    Draft.Sited function parameters
    { d with nodes := d.nodes.push ⟨expr, ty, span⟩, nextSpan := none } ∧
      ∀ {x site ty'}, Binds parameters (d.nodes.push ⟨expr, ty, span⟩) x site ty' →
        Binds parameters d.nodes x site ty' := by
  have hext := d.nodes.extendsTo_push ⟨expr, ty, span⟩
  have hbinds : ∀ {x site ty'},
    Binds parameters (d.nodes.push ⟨expr, ty, span⟩) x site ty' →
      Binds parameters d.nodes x site ty' := by
    intro x site ty' hbinds
    rcases hbinds.of_push h.valuesFound with hold | ⟨-, value, hexpr, -⟩
    · exact hold
    · change expr = _ at hexpr
      rw [hexpr] at hallows
      exact hallows.elim
  have hsited : expr.Sited parameters d.nodes ty := by
    cases expr with
    | var x =>
      obtain ⟨name, hresolve⟩ := hallows
      obtain ⟨scope, hscope, hname⟩ := List.exists_of_findSome?_eq_some hresolve
      exact (h.scopes scope hscope).2.bound name x ty hname
    | declaration x value => exact hallows.elim
    | _ => trivial
  refine ⟨⟨?_, ?_, ?_, ?_, h.nested⟩, hbinds⟩
  · intro other node hnode
    rw [Arena.get?_push] at hnode
    split at hnode
    · cases hnode
      exact hsited.mono hext
    · exact (h.nodes other node hnode).mono hext
  · exact fun x site ty' hx => h.located x site ty' (hbinds hx)
  · exact fun x site ty' site' ty'' hx hx' => h.once x site ty' site' ty'' (hbinds hx) (hbinds hx')
  · intro scope hscope
    obtain ⟨hlocated, hresolves⟩ := h.scopes scope hscope
    refine ⟨hlocated, fun name path ty' hname => ?_, fun name site ty' hx => ?_⟩
    · obtain ⟨site, hbound⟩ := hresolves.bound name path ty' hname
      exact ⟨site, hbound.mono hext⟩
    · exact hresolves.known name site ty' (hbinds hx)

/-- A declaration binds a name that the scope does not know yet. -/
theorem declared {value : NodeId} {valueNode : Node} (span : Span)
    (hvalue : d.nodes.get? value = some valueNode) (hnew : name ∉ d.innermost.names)
    (hname : ∀ n, name ≠ blockName n) : Draft.Sited function parameters { d with
      nodes := d.nodes.push ⟨.declaration (d.innermost.path.child name) value, .void, span⟩
      innermost := { d.innermost with
        names := d.innermost.names.insert name (d.innermost.path.child name, valueNode.ty) }
      nextSpan := none } := by
  obtain ⟨hinnermost, hresolves⟩ := h.scopes d.innermost List.mem_cons_self
  have hext :=
    d.nodes.extendsTo_push ⟨.declaration (d.innermost.path.child name) value, .void, span⟩
  have hbinds := fun {x site ty} (hx : Binds parameters
      (d.nodes.push ⟨.declaration (d.innermost.path.child name) value, .void, span⟩) x site
          ty) =>
    hx.of_declaration h.valuesFound hvalue
  -- The scope would know the name if it were bound before.
  have hunbound : ∀ site ty, ¬ Binds parameters d.nodes (d.innermost.path.child name) site ty :=
    fun site ty hold => hnew (hresolves.known name site ty hold)
  refine ⟨?_, ?_, ?_, ?_, List.pairwise_cons.2 (List.pairwise_cons.1 h.nested)⟩
  · intro other node hnode
    rw [Arena.get?_push] at hnode
    split at hnode
    · cases hnode
      exact ⟨valueNode, hext value valueNode hvalue⟩
    · exact (h.nodes other node hnode).mono hext
  · intro x site ty hx
    rcases hbinds hx with hold | ⟨-, rfl, -⟩
    · exact h.located x site ty hold
    · obtain ⟨outer, houter, hpath⟩ := hinnermost
      refine ⟨outer, name, houter, hname, ?_⟩
      change d.innermost.path.segments ++ [name] = _
      rw [hpath, List.append_assoc]
  · intro x site ty site' ty' hx hx'
    rcases hbinds hx with hold | ⟨rfl, rfl, rfl⟩
    · rcases hbinds hx' with hold' | ⟨-, rfl, -⟩
      · exact h.once x site ty site' ty' hold hold'
      · exact absurd hold (hunbound site ty)
    · rcases hbinds hx' with hold' | ⟨rfl, -, rfl⟩
      · exact absurd hold' (hunbound site' ty')
      · exact ⟨rfl, rfl⟩
  · intro scope hscope
    rcases List.mem_cons.1 hscope with rfl | hscope
    · exact ⟨hinnermost, hresolves.declare h.valuesFound hvalue⟩
    · obtain ⟨hlocated, hresolves'⟩ := h.scopes scope (List.mem_cons_of_mem _ hscope)
      refine ⟨hlocated, hresolves'.declareOutside h.valuesFound hvalue fun other hpath => ?_⟩
      -- An enclosing scope has a shorter path.
      have hlength := (List.pairwise_cons.1 h.nested).1 scope hscope
      rw [(Path.child_inj.1 hpath).1] at hlength
      exact absurd hlength (Nat.lt_irrefl _)

theorem opened : d.opened.Sited function parameters := by
  obtain ⟨⟨outer, houter, hpath⟩, -⟩ := h.scopes d.innermost List.mem_cons_self
  have hopened := segments_opened hpath
  refine ⟨h.nodes, ?_, h.once, ?_, ?_⟩
  · exact fun x site ty hx => (h.located x site ty hx).mono (Nat.le_succ _)
  · intro scope hscope
    rcases List.mem_cons.1 hscope with rfl | hscope
    · refine ⟨⟨outer ++ [d.blocks], fun n hn => ?_, hopened⟩, fun name path ty hname => ?_,
        fun name site ty hx => ?_⟩
      · rcases List.mem_append.1 hn with hn | hn
        · exact Nat.lt_succ_of_lt (houter n hn)
        · rw [List.mem_singleton.1 hn]
          exact Nat.lt_succ_self _
      · simp [Draft.opened] at hname
      · -- Only blocks that are open already occur in the paths of variables.
        obtain ⟨outer', name', houter', -, hx'⟩ := h.located _ site ty hx
        have heq := outer_eq_of_child hopened hx'
        exact absurd (houter' d.blocks (heq ▸ by simp)) (Nat.lt_irrefl _)
    · obtain ⟨hlocated, hresolves⟩ := h.scopes scope hscope
      exact ⟨hlocated.mono (Nat.le_succ _), hresolves⟩
  · refine List.pairwise_cons.2 ⟨fun scope hscope => ?_, h.nested⟩
    have hlength : d.opened.innermost.path.segments.length = d.innermost.path.segments.length +
        1 := by
      simp [Draft.opened, Path.child]
    rcases List.mem_cons.1 hscope with rfl | hscope
    · omega
    · have := (List.pairwise_cons.1 h.nested).1 scope hscope
      omega

/-- The scopes around a block know of no variable that is bound inside. -/
theorem enclosed (hinner : d₁.Sited function parameters)
    (hcontinues : Continues function parameters d.opened d₁) : Draft.Sited function parameters
    { d₁ with innermost := d.innermost, enclosing := d.enclosing } := by
  obtain ⟨⟨outer, houter, hpath⟩, -⟩ := h.scopes d.innermost List.mem_cons_self
  have hblocks : d.blocks ≤ d₁.blocks := Nat.le_of_succ_le hcontinues.blocks
  refine ⟨hinner.nodes, hinner.located, hinner.once, fun scope hscope => ?_, h.nested⟩
  obtain ⟨hlocated, hresolves⟩ := h.scopes scope hscope
  refine ⟨hlocated.mono hblocks, fun name path ty hname => ?_, fun name site ty hx => ?_⟩
  · obtain ⟨site, hbound⟩ := hresolves.bound name path ty hname
    exact ⟨site, hbound.mono hcontinues.nodes⟩
  · cases site with
    | none =>
      refine hresolves.known name none ty ?_
      generalize scope.path.child name = x at hx
      cases hx with
      | parameter hmem => exact .parameter hmem
    | some id =>
      rcases Nat.lt_or_ge id.index d.nodes.size with hlt | hge
      · exact hresolves.known name _ ty (hx.of_lt h.valuesFound hcontinues.nodes hlt)
      · obtain ⟨outer', houter', hpath'⟩ := hlocated
        rcases hcontinues.fresh _ id ty hx hge
          with ⟨other, hother⟩ | ⟨blocks, other, n, hn, hle, hother⟩
        · rw [(Path.child_inj.1 hother).1, segments_opened hpath] at hpath'
          have heq := map_blockName_inj.1 (List.append_cancel_left hpath')
          exact absurd (houter' d.blocks (heq ▸ by simp)) (Nat.lt_irrefl _)
        · have heq := outer_eq_of_child hpath' hother
          have hlt := houter' n (heq ▸ hn)
          have hle : d.blocks + 1 ≤ n := hle
          omega

end

end Draft.Sited

namespace Continues

theorem refl (d : Draft) : Continues function parameters d d := by
  refine ⟨fun _ _ hnode => hnode, rfl, rfl, Nat.le_refl _, fun x id ty hbinds hnew => ?_⟩
  cases hbinds with
  | declaration hnode _ _ => exact absurd hnew (Nat.not_le.2 (index_lt_size hnode))

theorem trans (h : Continues function parameters d d₁)
    (h' : Continues function parameters d₁ d₂) (hvalues : ValuesFound d₁.nodes) :
    Continues function parameters d d₂ := by
  refine ⟨fun id node hnode => h'.nodes id node (h.nodes id node hnode), h'.path.trans h.path,
    h'.enclosing.trans h.enclosing, Nat.le_trans h.blocks h'.blocks,
    fun x id ty hbinds hnew => ?_⟩
  rcases Nat.lt_or_ge id.index d₁.nodes.size with hlt | hge
  · exact h.fresh x id ty (hbinds.of_lt hvalues h'.nodes hlt) hnew
  · rcases h'.fresh x id ty hbinds hge with ⟨name, hx⟩ | ⟨outer, name, n, hn, hle, hx⟩
    · exact .inl ⟨name, by rw [hx, h.path]⟩
    · exact .inr ⟨outer, name, n, hn, Nat.le_trans h.blocks hle, hx⟩

/-- What is bound inside a block is bound in a block that was opened on the way. -/
theorem enclosed (h : Continues function parameters d.opened d₁)
    (hd : ScopeLocated function d.blocks d.innermost) : Continues function parameters d
    { d₁ with innermost := d.innermost, enclosing := d.enclosing } := by
  obtain ⟨outer, houter, hpath⟩ := hd
  refine ⟨h.nodes, rfl, rfl, Nat.le_of_succ_le h.blocks, fun x id ty hx hnew => .inr ?_⟩
  rcases h.fresh x id ty hx hnew with ⟨name, rfl⟩ | ⟨blocks, name, n, hn, hle, hx'⟩
  · refine ⟨outer ++ [d.blocks], name, d.blocks, by simp, Nat.le_refl _, ?_⟩
    change d.opened.innermost.path.segments ++ [name] = _
    rw [segments_opened hpath, List.append_assoc]
  · have hle : d.blocks + 1 ≤ n := hle
    exact ⟨blocks, name, n, hn, by omega, hx'⟩

end Continues

theorem Drafted.nodes (h : Drafted decls d d₁) : d.nodes.ExtendsTo d₁.nodes := by
  induction h with
  | refl => exact fun _ _ hnode => hnode
  | noted _ _ _ ih => exact ih
  | added _ _ _ ih | declared _ _ _ _ ih =>
      exact fun id node hnode => get?_push_of_get? _ (ih id node hnode)
  | enclosed _ _ ih ih' => exact fun id node hnode => ih' id node (ih id node hnode)

/-- While a draft goes on without names of blocks, every variable is bound once. -/
theorem Drafted.sited (h : Drafted decls d d₁) (hclear : Unblurred parameters d₁.nodes)
    (hd : d.Sited function parameters) :
    d₁.Sited function parameters ∧ Continues function parameters d d₁ := by
  induction h with
  | refl d => exact ⟨hd, .refl d⟩
  | noted h nextSpan labels ih =>
    obtain ⟨hsited, hcontinues⟩ := ih hclear hd
    exact ⟨⟨hsited.nodes, hsited.located, hsited.once, hsited.scopes, hsited.nested⟩,
      ⟨hcontinues.nodes, hcontinues.path, hcontinues.enclosing, hcontinues.blocks,
      hcontinues.fresh⟩⟩
  | added h span hallows ih =>
    have hext := ((Drafted.refl _).added span hallows).nodes
    obtain ⟨hsited, hcontinues⟩ := ih (hclear.earlier hext) hd
    obtain ⟨hafter, hbinds⟩ := hsited.added span hallows
    refine ⟨hafter, fun id node hnode => hext id node (hcontinues.nodes id node hnode),
      hcontinues.path, hcontinues.enclosing, hcontinues.blocks, fun x id ty hx hnew => ?_⟩
    exact hcontinues.fresh x id ty (hbinds hx) hnew
  | @declared d d₁ h name value valueNode span hvalue hnew ih =>
    have hext := ((Drafted.refl _ : Drafted decls _ _).declared span hvalue hnew).nodes
    obtain ⟨hsited, hcontinues⟩ := ih (hclear.earlier hext) hd
    have hname : ∀ n, name ≠ blockName n := by
      rintro n rfl
      exact hclear _ _ _ (.declaration (get?_push_self _ _) rfl (get?_push_of_get? _ hvalue)) n
        (by simp [Path.child])
    refine ⟨hsited.declared span hvalue hnew hname, fun id node hnode => hext id node
      (hcontinues.nodes id node hnode), hcontinues.path, hcontinues.enclosing, hcontinues.blocks,
      fun x id ty hx hfresh => ?_⟩
    rcases hx.of_declaration hsited.valuesFound hvalue with hold | ⟨-, rfl, -⟩
    · exact hcontinues.fresh x id ty hold hfresh
    · exact .inl ⟨name, by rw [hcontinues.path]⟩
  | enclosed h hinner ih ih' =>
    obtain ⟨hsited, hcontinues⟩ := ih (hclear.earlier hinner.nodes) hd
    obtain ⟨hafter, hcontinues'⟩ := ih' hclear hsited.opened
    have hscope := (hsited.scopes _ List.mem_cons_self).1
    exact ⟨hsited.enclosed hafter hcontinues',
      hcontinues.trans (hcontinues'.enclosed hscope) hsited.valuesFound⟩

/-! ## Functions -/

/-- With its parameters bound, the draft of a function has a site for each of them. -/
theorem sited_start {u : Unit} (hpaths : ∀ p ∈ parameters, p.path = function.child p.name)
    (hclear : Unblurred parameters d.nodes)
    (h : Yields (parameters.forM fun p => DraftM.bind p.name p.path p.ty) (.start function) u d) :
    d.Sited function parameters ∧ d.nodes = .empty := by
  obtain ⟨hnodup, -, names, rfl, hmem, hbound⟩ := yields_bindParameters h
  have hnone : ∀ id, (Arena.empty : Arena Node).get? id = none := fun id => rfl
  have hparameter : ∀ {x site ty}, Binds parameters (.empty : Arena Node) x site ty →
      site = none ∧ ∃ p ∈ parameters, p.path = x ∧ p.ty = ty := by
    intro x site ty hx
    cases hx with
    | parameter hp => exact ⟨rfl, _, hp, rfl, rfl⟩
    | declaration hnode _ _ =>
      rw [hnone] at hnode
      cases hnode
  have hnames : ∀ p ∈ parameters, ∀ n, p.name ≠ blockName n := by
    intro p hp n hname
    refine hclear _ _ _ (.parameter hp) n ?_
    rw [hpaths p hp, ← hname]
    simp [Path.child]
  refine ⟨⟨fun id node hnode => ?_, ?_, ?_, ?_, List.pairwise_singleton _ _⟩, rfl⟩
  · change (Arena.empty : Arena Node).get? id = some node at hnode
    rw [hnone] at hnode
    cases hnode
  · intro x site ty hx
    obtain ⟨-, p, hp, rfl, -⟩ := hparameter hx
    exact ⟨[], p.name, by simp, hnames p hp, by rw [hpaths p hp]; rfl⟩
  · intro x site ty site' ty' hx hx'
    obtain ⟨rfl, p, hp, hpath, rfl⟩ := hparameter hx
    obtain ⟨rfl, q, hq, hpath', rfl⟩ := hparameter hx'
    rw [hpaths p hp, ← hpath', hpaths q hq] at hpath
    rw [List.inj_on_of_nodup_map hnodup hp hq (Path.child_inj.1 hpath).2]
    exact ⟨rfl, rfl⟩
  · intro scope hscope
    obtain rfl := List.mem_singleton.1 hscope
    refine ⟨⟨[], by simp, by simp [Draft.start]⟩, fun name path ty hname => ?_,
      fun name site ty hx => ?_⟩
    · rcases hbound name (path, ty) hname with hold | ⟨p, hp, -, heq⟩
      · simp [Draft.start] at hold
      · cases heq
        exact ⟨none, .parameter hp⟩
    · obtain ⟨-, p, hp, hpath, -⟩ := hparameter hx
      rw [hpaths p hp] at hpath
      exact (hmem name).2 (.inr ⟨p, hp, (Path.child_inj.1 hpath).2⟩)

end Sites

/-- The nodes of the function know the variables that they name, and variables do not overlap. -/
structure Owner.Sited (owner : Owner) (function : Function) : Prop where
  nodes : ∀ id node, owner.nodes.get? id = some node →
    node.expr.Sited function.parameters owner.nodes node.ty
  apart : ∀ {x y m m' : Path} {site site' : Option NodeId} {ty ty' : Ty},
    Binds function.parameters owner.nodes x site ty →
    Binds function.parameters owner.nodes y site' ty' → x ++ m = y ++ m' →
    x = y ∧ site = site' ∧ ty = ty'
  nonempty : ∀ {x : Path} {site : Option NodeId} {ty : Ty},
    Binds function.parameters owner.nodes x site ty → x.segments ≠ []

/-- The body of a function has sites for its variables, whatever term it is drafted from. -/
theorem sited_ofTerm {decls : Declarations} {id : OwnerId} {signature : Signature} {body : Term}
    {owner : Owner} (h : Function.ofTerm decls id signature body = .ok owner) {function : Function}
    (hkind : owner.kind = .function function) (hclear : Unblurred function.parameters owner.nodes) :
    owner.Sited function := by
  obtain ⟨-, found, d, d', hfound, hnodes, -, hparameters, hbound, hbody, -⟩ :=
    yields_of_ofTerm h
  cases hkind.symm.trans hfound
  rw [hnodes] at hclear
  have hdrafted := (makes_draftAt decls body none _ _ _ hbody).1
  obtain ⟨hstart, -⟩ := sited_start (by
    rw [hparameters]
    intro p hp
    obtain ⟨parameter, -, rfl⟩ := List.mem_map.1 hp
    rfl) (hclear.earlier hdrafted.nodes) hbound
  obtain ⟨hend, -⟩ := hdrafted.sited hclear hstart
  refine ⟨hnodes ▸ hend.nodes, hnodes ▸ hend.apart, fun hx => ?_⟩
  obtain ⟨outer, name, -, -, hsegments⟩ := hend.located _ _ _ (hnodes ▸ hx)
  simp [hsegments]

end Regions
