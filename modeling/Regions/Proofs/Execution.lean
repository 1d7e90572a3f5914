import Regions.Proofs.Bodies

/-!
# Executions

What a function body does when it runs, as far as references are concerned. A value is the addresses
that it holds, by member path, so that data without references is left out: branches are taken
either way, and loops run any number of times. Operators evaluate all their operands, and give
plain data. There is no rule for accesses through references.

* `Address`, `Value`, `Memory`: slots of variables, cells of heap memory, and what they hold;
* `Computes`: the last step of a node whose operands all have their values;
* `Exec`: big steps, of a node, of nodes in order, and of a loop. An execution can be left by a
  jump, and may be stopped anywhere, which gives its intermediate states;
* `Exec.fits`, `Exec.typed`: addresses stand where the types have references;
* `Exec.changed`: slots change by declarations and assignments only.
-/

namespace Regions

variable {values : List Value} {x : Path} {final : Nat} {value : Value} {m : Path}
  {address : Address} {nodes : Arena Node} {first : Nat}

/-- What a reference leads to. -/
inductive Address
  /-- The storage of the member at `m` of the variable `x`. -/
  | slot (x m : Path)
  /-- Heap memory. -/
  | heap (cell : Nat)
  /-- Storage of the caller, which the member at `m` of the parameter `x` came with. -/
  | passed (x m : Path)
  /-- Storage of a call that has ended. -/
  | dangling
  deriving DecidableEq, Repr

def Address.isHeap : Address → Bool
  | .heap _ => true
  | _ => false

/-- The addresses in a value, by member path. -/
def Value := Path → Option Address

namespace Value

/-- Data without references. -/
def plain : Value := fun _ => none

/-- A reference. -/
def reference (address : Address) : Value :=
  fun m => if m = .whole then some address else none

def member (value : Value) (name : String) : Value :=
  fun m => value (.single name ++ m)

/-- The value with another value in place of its member at a path. -/
def overwrite (value : Value) (base : Path) (part : Value) : Value :=
  fun m => match m.strip? base with
    | some rest => part rest
    | none => value m

/-- The struct with the given members. -/
def record : List (String × Value) → Value
  | [] => plain
  | (name, part) :: rest => (record rest).overwrite (.single name) part

/-- What values of a type can hold. -/
def restrict (decls : Declarations) (ty : Ty) (value : Value) : Value :=
  fun m => if decls.refersAt ty m then value m else none

/-- All references lead to heap memory. -/
def OnHeap (value : Value) : Prop :=
  ∀ m address, value m = some address → address.isHeap = true

/-- An argument, as the parameter `x` of the called function. -/
def enter (x : Path) (value : Value) : Value :=
  fun m => (value m).map fun
    | .heap cell => .heap cell
    | _ => .passed x m

/-- A value of a called function, as the caller has it; `passed` are the parameters. -/
def leave (passed : Path → Value) (value : Value) : Value :=
  fun m => (value m).map fun
    | .heap cell => .heap cell
    | .passed x m' => (passed x m').getD .dangling
    | _ => .dangling

end Value

/-- What the slots of variables and the cells of heap memory hold. -/
structure Memory where
  slots : Path → Value
  heap : List Value

namespace Memory

def write (memory : Memory) (x : Path) (value : Value) : Memory :=
  { memory with slots := fun y => if y = x then value else memory.slots y }

def allocate (memory : Memory) (value : Value) : Memory :=
  { memory with heap := memory.heap ++ [value] }

/-- The arguments of a call, by parameter. -/
def arguments (decls : Declarations) (parameters : List Parameter) (values : List Value) :
    Path → Value :=
  (parameters.zip values).foldr
    (fun (p, value) passed x => if x = p.path then value.restrict decls p.ty else passed x)
    fun _ => .plain

/-- The memory that a called function starts in. -/
def called (memory : Memory) (passed : Path → Value) : Memory :=
  { memory with slots := fun x => (passed x).enter x }

/-- The memory after a called function has ended in `last`. -/
def returned (memory : Memory) (passed : Path → Value) (last : Memory) : Memory :=
  { memory with
    heap := memory.heap ++ (last.heap.drop memory.heap.length).map (Value.leave passed) }

end Memory

/-- How an execution is left before it is done. -/
inductive Exit
  | breakLoop
  | continueLoop
  /-- Not a jump: the execution is only looked at up to here. -/
  | stop
  deriving DecidableEq, Repr

/-- What is executed. -/
inductive Task
  | eval (id : NodeId)
  | evalAll (ids : List NodeId)
  | iterate (condition body : NodeId)

inductive Outcome
  | done (values : List Value)
  | left (exit : Exit)

def Outcome.prepend (value : Value) : Outcome → Outcome
  | .done values => .done (value :: values)
  | .left exit => .left exit

/-- The operands that are evaluated first, whatever the node does. -/
def Expr.operands : Expr → List NodeId
  | .addressOf _ | .loop _ _ => []
  | .assignment _ value => [value]
  | .cond condition _ _ => [condition]
  | expr => expr.children

/-- With these values of its operands, the node has this value and leaves this memory. -/
inductive Computes (nodes : Arena Node) :
    Expr → List Value → Memory → Value → Memory → Prop
  | literal {l : Literal} {memory : Memory} : Computes nodes (.literal l) [] memory .plain memory
  | var {x : Path} {memory : Memory} : Computes nodes (.var x) [] memory (memory.slots x) memory
  | addressOf {target : NodeId} {x m : Path} {memory : Memory} (hnames : Names nodes target x m) :
      Computes nodes (.addressOf target) [] memory (.reference (.slot x m)) memory
  | memberAccess {target : NodeId} {name : String} {value : Value} {memory : Memory} :
      Computes nodes (.memberAccess target name) [value] memory (value.member name) memory
  | newDefault {memory : Memory} :
      Computes nodes (.new none) [] memory (.reference (.heap memory.heap.length))
        (memory.allocate .plain)
  | newWith {initializer : NodeId} {value : Value} {memory : Memory} :
      Computes nodes (.new (some initializer)) [value] memory
        (.reference (.heap memory.heap.length)) (memory.allocate value)
  | structLiteral {fields : List (String × NodeId)} {values : List Value} {memory : Memory} :
      Computes nodes (.structLiteral fields) values memory
        (.record ((fields.map Prod.fst).zip values)) memory
  | unary {op : UnaryOp} {operand : NodeId} {values : List Value} {memory : Memory} :
      Computes nodes (.unary op operand) values memory .plain memory
  /-- Both operands have been evaluated, whatever the operation is. -/
  | binary {op : BinaryOp} {lhs rhs : NodeId} {values : List Value} {memory : Memory} :
      Computes nodes (.binary op lhs rhs) values memory .plain memory
  | block {statements : List NodeId} {values : List Value} {memory : Memory} :
      Computes nodes (.block statements) values memory (values.getLast?.getD .plain) memory
  | declaration {x : Path} {initializer : NodeId} {value : Value} {memory : Memory} :
      Computes nodes (.declaration x initializer) [value] memory .plain (memory.write x value)
  | assignment {target source : NodeId} {x m : Path} {value : Value} {memory : Memory}
      (hnames : Names nodes target x m) :
      Computes nodes (.assignment target source) [value] memory .plain
        (memory.write x ((memory.slots x).overwrite m value))
  /-- The value of a node without `else` branch whose branch is not taken. -/
  | skipped {condition positive : NodeId} {values : List Value} {memory : Memory} :
      Computes nodes (.cond condition positive none) values memory .plain memory

/-- Executions in the functions of a program. A called function without a body gives back heap
memory only. -/
inductive Exec (program : Program) (decls : Declarations) :
    Owner → Task → Memory → Outcome → Memory → Prop
  | stop {owner : Owner} {task : Task} {memory : Memory} :
      Exec program decls owner task memory (.left .stop) memory
  | node {owner : Owner} {id : NodeId} {node : Node} {memory middle last : Memory}
      {values : List Value} {value : Value} (hnode : owner.nodes.get? id = some node)
      (hoperands : Exec program decls owner (.evalAll node.expr.operands) memory
      (.done values) middle) (hcomputes : Computes owner.nodes node.expr values middle value last) :
      Exec program decls owner (.eval id) memory (.done [value.restrict decls node.ty]) last
  | leave {owner : Owner} {id : NodeId} {node : Node} {memory last : Memory} {exit : Exit}
      (hnode : owner.nodes.get? id = some node)
      (hoperands : Exec program decls owner (.evalAll node.expr.operands) memory
      (.left exit) last) : Exec program decls owner (.eval id) memory (.left exit) last
  | call {owner callee : Owner} {id : NodeId} {node : Node} {path : Path} {arguments : List NodeId}
      {function : Function} {memory middle last : Memory} {values : List Value} {value : Value}
      (hnode : owner.nodes.get? id = some node) (hexpr : node.expr = .call path arguments)
      (harguments : Exec program decls owner (.evalAll arguments) memory (.done values) middle)
      (hcallee : callee ∈ program.owners) (hkind : callee.kind = .function function)
      (hpath : function.path = path) (hbody : Exec program decls callee (.eval function.body)
        (middle.called (Memory.arguments decls function.parameters values)) (.done [value]) last) :
      Exec program decls owner (.eval id) memory
        (.done [((value.restrict decls function.returns).leave
          (Memory.arguments decls function.parameters values)).restrict decls node.ty])
        (middle.returned (Memory.arguments decls function.parameters values) last)
  | callStop {owner callee : Owner} {id : NodeId} {node : Node} {path : Path}
      {arguments : List NodeId} {function : Function} {memory middle last : Memory}
      {values : List Value} (hnode : owner.nodes.get? id = some node)
      (hexpr : node.expr = .call path arguments)
      (harguments : Exec program decls owner (.evalAll arguments) memory (.done values) middle)
      (hcallee : callee ∈ program.owners) (hkind : callee.kind = .function function)
      (hpath : function.path = path) (hbody : Exec program decls callee (.eval function.body)
        (middle.called (Memory.arguments decls function.parameters values)) (.left .stop) last) :
      Exec program decls owner (.eval id) memory (.left .stop)
        (middle.returned (Memory.arguments decls function.parameters values) last)
  | foreign {owner : Owner} {id : NodeId} {node : Node} {path : Path} {arguments : List NodeId}
      {memory middle : Memory} {values cells : List Value} {value : Value}
      (hnode : owner.nodes.get? id = some node) (hexpr : node.expr = .call path arguments)
      (harguments : Exec program decls owner (.evalAll arguments) memory (.done values) middle)
      (hforeign : ∀ callee ∈ program.owners, ∀ function, callee.kind = .function function →
        function.path ≠ path)
      (hvalue : value.OnHeap) (hcells : ∀ cell ∈ cells, cell.OnHeap) :
      Exec program decls owner (.eval id) memory (.done [value.restrict decls node.ty])
        { middle with heap := middle.heap ++ cells }
  | branch {owner : Owner} {id condition positive branch : NodeId} {negative : Option NodeId}
      {node : Node} {memory middle last : Memory} {values : List Value} {value : Value}
      (hnode : owner.nodes.get? id = some node)
      (hexpr : node.expr = .cond condition positive negative)
      (hcondition : Exec program decls owner (.evalAll [condition]) memory (.done values) middle)
      (hbranch : branch = positive ∨ negative = some branch)
      (htaken : Exec program decls owner (.eval branch) middle (.done [value]) last) :
      Exec program decls owner (.eval id) memory (.done [value.restrict decls node.ty]) last
  | branchLeft {owner : Owner} {id condition positive branch : NodeId} {negative : Option NodeId}
      {node : Node} {memory middle last : Memory} {values : List Value} {exit : Exit}
      (hnode : owner.nodes.get? id = some node)
      (hexpr : node.expr = .cond condition positive negative)
      (hcondition : Exec program decls owner (.evalAll [condition]) memory (.done values) middle)
      (hbranch : branch = positive ∨ negative = some branch)
      (htaken : Exec program decls owner (.eval branch) middle (.left exit) last) :
      Exec program decls owner (.eval id) memory (.left exit) last
  | loop {owner : Owner} {id condition body : NodeId} {node : Node} {memory last : Memory}
      (hnode : owner.nodes.get? id = some node) (hexpr : node.expr = .loop condition body)
      (hiterate : Exec program decls owner (.iterate condition body) memory (.done []) last) :
      Exec program decls owner (.eval id) memory (.done [.plain]) last
  | loopStop {owner : Owner} {id condition body : NodeId} {node : Node} {memory last : Memory}
      (hnode : owner.nodes.get? id = some node) (hexpr : node.expr = .loop condition body)
      (hiterate : Exec program decls owner (.iterate condition body) memory (.left .stop) last) :
      Exec program decls owner (.eval id) memory (.left .stop) last
  | breakLoop {owner : Owner} {id : NodeId} {node : Node} {memory : Memory}
      (hnode : owner.nodes.get? id = some node) (hexpr : node.expr = .breakLoop) :
      Exec program decls owner (.eval id) memory (.left .breakLoop) memory
  | continueLoop {owner : Owner} {id : NodeId} {node : Node} {memory : Memory}
      (hnode : owner.nodes.get? id = some node) (hexpr : node.expr = .continueLoop) :
      Exec program decls owner (.eval id) memory (.left .continueLoop) memory
  | nil {owner : Owner} {memory : Memory} :
      Exec program decls owner (.evalAll []) memory (.done []) memory
  | cons {owner : Owner} {id : NodeId} {ids : List NodeId} {memory middle last : Memory}
      {value : Value} {outcome : Outcome}
      (hfirst : Exec program decls owner (.eval id) memory (.done [value]) middle)
      (hrest : Exec program decls owner (.evalAll ids) middle outcome last) :
      Exec program decls owner (.evalAll (id :: ids)) memory (outcome.prepend value) last
  | consLeft {owner : Owner} {id : NodeId} {ids : List NodeId} {memory last : Memory} {exit : Exit}
      (hfirst : Exec program decls owner (.eval id) memory (.left exit) last) :
      Exec program decls owner (.evalAll (id :: ids)) memory (.left exit) last
  /-- The condition fails. -/
  | finish {owner : Owner} {condition body : NodeId} {memory last : Memory} {value : Value}
      (hcondition : Exec program decls owner (.eval condition) memory (.done [value]) last) :
      Exec program decls owner (.iterate condition body) memory (.done []) last
  /-- The iteration comes to its end, or is cut short. -/
  | again {owner : Owner} {condition body : NodeId} {memory middle last : Memory}
      {first rest : Outcome}
      (hfirst : Exec program decls owner (.evalAll [condition, body]) memory first middle)
      (hgoes : ∀ exit, first = .left exit → exit = .continueLoop)
      (hrest : Exec program decls owner (.iterate condition body) middle rest last) :
      Exec program decls owner (.iterate condition body) memory rest last
  | broken {owner : Owner} {condition body : NodeId} {memory last : Memory}
      (hfirst : Exec program decls owner (.evalAll [condition, body]) memory
      (.left .breakLoop) last) :
      Exec program decls owner (.iterate condition body) memory (.done []) last
  | stopped {owner : Owner} {condition body : NodeId} {memory last : Memory}
      (hfirst : Exec program decls owner (.evalAll [condition, body]) memory (.left .stop) last) :
      Exec program decls owner (.iterate condition body) memory (.left .stop) last

variable {program : Program} {decls : Declarations} {owner : Owner} {function : Function}
  {memory last : Memory} {id : NodeId} {ids : List NodeId}

/-! ## Addresses stand where types have references -/

namespace Value

variable {ty : Ty}

theorem restrict_eq_some (h : value.restrict decls ty m = some address) :
    decls.refersAt ty m = true ∧ value m = some address := by
  unfold restrict at h
  split at h
  · exact ⟨‹_›, h⟩
  · cases h

theorem onHeap_plain : plain.OnHeap := by
  intro m address hm
  cases hm

theorem onHeap_reference (cell : Nat) : (reference (.heap cell)).OnHeap := by
  intro m address hm
  unfold reference at hm
  split at hm
  · cases hm
    rfl
  · cases hm

theorem OnHeap.leave (h : value.OnHeap) (passed : Path → Value) :
    (value.leave passed).OnHeap := by
  intro m address hm
  obtain ⟨found, hfound, haddress⟩ := Option.map_eq_some_iff.1 hm
  have hheap := h m found hfound
  cases found with
  | heap cell =>
    subst haddress
    rfl
  | _ => cases hheap

theorem OnHeap.restrict (h : value.OnHeap) : (value.restrict decls ty).OnHeap := by
  intro m address hm
  exact h m address (restrict_eq_some hm).2

end Value

/-- The value has addresses only where the type of the node has references. -/
def FitsNode (decls : Declarations) (nodes : Arena Node) (id : NodeId) (value : Value) : Prop :=
  ∃ node, nodes.get? id = some node ∧
    ∀ m address, value m = some address → decls.refersAt node.ty m = true

theorem Exec.fits (h : Exec program decls owner (.eval id) memory (.done [value]) last) :
    FitsNode decls owner.nodes id value := by
  cases h with
  | node hnode _ _ | call hnode _ _ _ _ _ _ | foreign hnode _ _ _ _ _ =>
    exact ⟨_, hnode, fun _ _ hm => (Value.restrict_eq_some hm).1⟩
  | branch hnode _ _ _ _ => exact ⟨_, hnode, fun _ _ hm => (Value.restrict_eq_some hm).1⟩
  | loop hnode _ _ => exact ⟨_, hnode, fun _ _ hm => by cases hm⟩

theorem Exec.fitsAll (h : Exec program decls owner (.evalAll ids) memory (.done values) last) :
    List.Forall₂ (FitsNode decls owner.nodes) ids values := by
  induction ids generalizing memory values with
  | nil =>
    cases h
    exact .nil
  | cons id ids ih =>
    generalize houtcome : Outcome.done values = outcome at h
    cases h with
    | stop => cases houtcome
    | @cons _ _ _ _ _ _ value outcome hfirst hrest =>
      cases outcome with
      | left exit => cases houtcome
      | done rest =>
        cases houtcome
        exact .cons hfirst.fits (ih hrest)
    | consLeft _ => cases houtcome

/-- The slots of variables hold addresses only where the types of the variables have references. -/
def Memory.Typed (decls : Declarations) (owner : Owner) (function : Function) (memory : Memory) :
    Prop :=
  ∀ x site ty m address, Binds function.parameters owner.nodes x site ty →
    memory.slots x m = some address → decls.refersAt ty m = true

/-- Below a member path, the references of a type are those of the type that is found there. -/
theorem Declarations.refersAt_append {ty inner : Ty} {rest : Path}
    (h : decls.typeAlong? ty m.segments = some inner) :
    decls.refersAt ty (m ++ rest) = decls.refersAt inner rest := by
  have happend : decls.typeAlong? ty (m ++ rest).segments = decls.typeAlong? inner
      rest.segments := by
    change decls.typeAlong? ty (m.segments ++ rest.segments) = _
    rw [typeAlong?_append, h]
    rfl
  rw [refersAt, happend]
  rfl

theorem Value.overwrite_eq_some {part : Value} {base : Path}
    (h : value.overwrite base part m = some address) :
    (∃ rest, m = base ++ rest ∧ part rest = some address) ∨
      (∀ rest, m ≠ base ++ rest) ∧ value m = some address := by
  unfold overwrite at h
  split at h
  · rename_i rest hrest
    exact .inl ⟨rest, Path.strip?_eq_some_iff.1 hrest, h⟩
  · rename_i hnone
    refine .inr ⟨fun rest heq => ?_, h⟩
    rw [Path.strip?_eq_some_iff.2 heq] at hnone
    cases hnone

theorem Value.overwrite_append (value part : Value) (base m : Path) :
    value.overwrite base part (base ++ m) = part m := by
  unfold overwrite
  rw [Path.strip?_eq_some_iff.2 rfl]

/-- Each address in a struct is below the name of one of its members. -/
theorem Value.record_eq_some {members : List (String × Value)}
    (h : record members m = some address) :
    ∃ member ∈ members, ∃ rest, m = .single member.1 ++ rest ∧
    member.2 rest = some address := by
  induction members with
  | nil => cases h
  | cons member members ih =>
    rcases overwrite_eq_some h with ⟨rest, hm, hpart⟩ | ⟨-, hrest⟩
    · exact ⟨member, List.mem_cons_self, rest, hm, hpart⟩
    · obtain ⟨other, hother, hfound⟩ := ih hrest
      exact ⟨other, List.mem_cons_of_mem _ hother, hfound⟩

/-- After an assignment, an address stands in the assigned part, or where it stood before. -/
theorem Memory.slots_assign {y base : Path}
    (h : (memory.write x ((memory.slots x).overwrite base value)).slots y m = some address) :
    (y = x ∧ ∃ rest, m = base ++ rest ∧ value rest = some address) ∨
      (y = x → ∀ rest, m ≠ base ++ rest) ∧ memory.slots y m = some address := by
  simp only [Memory.write] at h
  split at h
  · rename_i heq
    subst heq
    rcases Value.overwrite_eq_some h with hpart | ⟨hother, hold⟩
    · exact .inl ⟨rfl, hpart⟩
    · exact .inr ⟨fun _ => hother, hold⟩
  · rename_i hne
    exact .inr ⟨fun heq => absurd heq hne, h⟩

/-- Writing a variable whose new value fits its type. -/
theorem Memory.Typed.write (hshaped : Shaped decls owner function)
    (htyped : memory.Typed decls owner function) {site : Option NodeId} {ty : Ty}
    (hbinds : Binds function.parameters owner.nodes x site ty)
    (hfits : ∀ m address, value m = some address → decls.refersAt ty m = true) :
    (memory.write x value).Typed decls owner function := by
  intro y site' ty' m address hbinds' hslot
  simp only [Memory.write] at hslot
  split at hslot
  · rename_i heq
    subst heq
    obtain ⟨-, -, rfl⟩ := hshaped.apart hbinds hbinds' (rfl : _ ++ Path.whole = _ ++ Path.whole)
    exact hfits m address hslot
  · exact htyped y site' ty' m address hbinds' hslot

theorem Computes.typed (hshaped : Shaped decls owner function) {node : Node}
    (hnode : owner.nodes.get? id = some node)
    (hvalues : List.Forall₂ (FitsNode decls owner.nodes) node.expr.operands values)
    (htyped : memory.Typed decls owner function)
    (h : Computes owner.nodes node.expr values memory value last) :
    last.Typed decls owner function := by
  have hfitting := hshaped.fitting id node hnode
  generalize hexpr : node.expr = expr at h hvalues hfitting
  cases h with
  | declaration =>
    obtain ⟨valueNode, hvalueNode⟩ := hfitting
    obtain ⟨⟨_, hfound, hfits⟩, -⟩ := List.forall₂_cons.1 hvalues
    cases hvalueNode.symm.trans hfound
    exact htyped.write hshaped (.declaration hnode hexpr hvalueNode) hfits
  | @assignment target source x base value memory hnames =>
    obtain ⟨-, targetNode, valueNode, htargetNode, hvalueNode, hsame⟩ := hfitting
    obtain ⟨⟨_, hfound, hfits⟩, -⟩ := List.forall₂_cons.1 hvalues
    cases hvalueNode.symm.trans hfound
    obtain ⟨site, ty, hbinds⟩ := hshaped.binds_of_names hnames
    have halong := hshaped.typeAlong?_of_names hnames hbinds htargetNode
    refine htyped.write hshaped hbinds fun m address hslot => ?_
    rcases Value.overwrite_eq_some hslot with ⟨rest, rfl, hpart⟩ | ⟨-, hold⟩
    · rw [Declarations.refersAt_append halong, hsame]
      exact hfits rest address hpart
    · exact htyped x site ty m address hbinds hold
  | _ => exact htyped

/-- An execution keeps the slots of its function typed. -/
theorem Exec.typed {task : Task} {outcome : Outcome}
    (h : Exec program decls owner task memory outcome last) (hshaped : Shaped decls owner function)
    (htyped : memory.Typed decls owner function) : last.Typed decls owner function := by
  induction h generalizing function with
  | node hnode hoperands hcomputes ih =>
    exact hcomputes.typed hshaped hnode hoperands.fitsAll (ih hshaped htyped)
  | leave _ _ ih => exact ih hshaped htyped
  | call _ _ _ _ _ _ _ ih _ => exact ih hshaped htyped
  | callStop _ _ _ _ _ _ _ ih _ => exact ih hshaped htyped
  | foreign _ _ _ _ _ _ ih => exact ih hshaped htyped
  | branch _ _ _ _ _ ihcondition ihbranch | branchLeft _ _ _ _ _ ihcondition ihbranch =>
    exact ihbranch hshaped (ihcondition hshaped htyped)
  | loop _ _ _ ih => exact ih hshaped htyped
  | loopStop _ _ _ ih => exact ih hshaped htyped
  | cons _ _ ihfirst ihrest | again _ _ _ ihfirst ihrest =>
      exact ihrest hshaped (ihfirst hshaped htyped)
  | consLeft _ ih => exact ih hshaped htyped
  | finish _ ih => exact ih hshaped htyped
  | broken _ ih => exact ih hshaped htyped
  | stopped _ ih => exact ih hshaped htyped
  | _ => exact htyped

/-! ## Entering a function -/

/-- Memory when the body of a function is entered: references in parameters lead to heap memory, or
stand for what was passed in. -/
def Memory.Entered (decls : Declarations) (function : Function) (memory : Memory) : Prop :=
  ∀ x m address, memory.slots x m = some address →
    (∃ p ∈ function.parameters, p.path = x ∧ decls.refersAt p.ty m = true) ∧
      (address.isHeap = true ∨ address = .passed x m)

theorem Memory.Entered.typed (h : memory.Entered decls function)
    (hshaped : Shaped decls owner function) : memory.Typed decls owner function := by
  intro x site ty m address hbinds hslot
  obtain ⟨⟨p, hp, rfl, hrefers⟩, -⟩ := h x m address hslot
  obtain ⟨-, -, rfl⟩ :=
    hshaped.apart hbinds (.parameter hp) (rfl : _ ++ Path.whole = _ ++ Path.whole)
  exact hrefers

/-- The arguments of a call have references only where the parameters have them. -/
theorem Memory.arguments_eq_some {parameters : List Parameter}
    (h : Memory.arguments decls parameters values x m = some address) :
    ∃ p ∈ parameters, p.path = x ∧ decls.refersAt p.ty m = true := by
  induction parameters generalizing values with
  | nil => cases h
  | cons p parameters ih =>
    cases values with
    | nil => cases h
    | cons value values =>
      simp only [Memory.arguments, List.zip_cons_cons, List.foldr_cons] at h
      split at h
      · rename_i heq
        exact ⟨p, List.mem_cons_self, heq.symm, (Value.restrict_eq_some h).1⟩
      · obtain ⟨q, hq, hfound⟩ := ih h
        exact ⟨q, List.mem_cons_of_mem _ hq, hfound⟩

theorem Memory.entered_called :
    (memory.called (Memory.arguments decls function.parameters values)).Entered decls function := by
  intro x m address hslot
  simp only [Memory.called, Value.enter, Option.map_eq_some_iff] at hslot
  obtain ⟨passed, hpassed, haddress⟩ := hslot
  refine ⟨Memory.arguments_eq_some hpassed, ?_⟩
  cases passed with
  | heap cell =>
    subst haddress
    exact .inl rfl
  | _ => exact .inr haddress.symm

/-! ## What changes -/

/-- The nodes that a task begins with. -/
def Task.roots : Task → List NodeId
  | .eval id => [id]
  | .evalAll ids => ids
  | .iterate condition body => [condition, body]

/-- A node that writes to the member at `m` of the variable `x`, or to something around it. -/
def Writes (nodes : Arena Node) (node : Node) (x m : Path) : Prop :=
  (∃ value, node.expr = .declaration x value) ∨
    ∃ target value base rest, node.expr = .assignment target value ∧
    Names nodes target x base ∧ m = base ++ rest

/-- Slots that differ were written to by a node in the interval. -/
def Changed (nodes : Arena Node) (first last : Nat) (before after : Memory) : Prop :=
  ∀ x m, after.slots x m ≠ before.slots x m → ∃ id node, first ≤ id.index ∧
    id.index < last ∧ nodes.get? id = some node ∧ Writes nodes node x m

namespace Changed

variable {end₁ first' end₂ : Nat} {before middle after : Memory}

theorem of_slots_eq (h : after.slots = before.slots) : Changed nodes first end₁ before after :=
  fun x m hne => absurd (congrFun (congrFun h x) m) hne

theorem mono (h : Changed nodes first end₁ before after) (hfirst : first' ≤ first)
    (hend : end₁ ≤ end₂) : Changed nodes first' end₂ before after := by
  intro x m hne
  obtain ⟨id, node, hlow, hhigh, hnode, hwrites⟩ := h x m hne
  exact ⟨id, node, by omega, by omega, hnode, hwrites⟩

theorem trans (h : Changed nodes first end₁ before middle)
    (h' : Changed nodes first end₁ middle after) : Changed nodes first end₁ before after := by
  intro x m hne
  by_cases heq : middle.slots x m = before.slots x m
  · exact h' x m (heq ▸ hne)
  · exact h x m heq

end Changed

/-- The operands that are evaluated first fill a part of the interval below the node. -/
theorem Spans.operands {expr : Expr} (h : Spans nodes first expr.children final) :
    ∃ first' final', first ≤ first' ∧ final' ≤ final ∧
    Spans nodes first' expr.operands final' := by
  cases expr with
  | addressOf target | loop condition body =>
      exact ⟨first, first, Nat.le_refl _, h.le, .nil first⟩
  | assignment target value =>
    cases h with
    | @cons _ _ _ _ _ _ below rest =>
      have hbelow := below.le
      exact ⟨_, final, by omega, Nat.le_refl _, rest⟩
  | cond condition positive negative =>
    cases h with
    | @cons _ _ _ _ _ hnode below rest =>
      exact ⟨first, _, Nat.le_refl _, rest.le, .cons hnode below (.nil _)⟩
  | _ => exact ⟨first, final, Nat.le_refl _, Nat.le_refl _, h⟩

theorem Spans.branch {condition positive branch : NodeId} {negative : Option NodeId}
    (h : Spans nodes first (Expr.cond condition positive negative).children final)
    (hbranch : branch = positive ∨ negative = some branch) :
    Spans nodes first [condition] (condition.index + 1) ∧
    ∃ first', condition.index + 1 ≤ first' ∧
      branch.index + 1 ≤ final ∧ Spans nodes first' [branch] (branch.index + 1) := by
  obtain ⟨hcondition, hbranches⟩ := h.head
  have hmem : branch ∈ positive :: negative.toList := by
    rcases hbranch with rfl | rfl <;> simp
  exact ⟨hcondition, hbranches.part hmem⟩

theorem Memory.slots_write {y : Path}
    (h : (memory.write x value).slots y m ≠ memory.slots y m) : y = x := by
  by_contra hne
  simp [Memory.write, hne] at h

theorem Computes.changed {node : Node}
    (hnode : nodes.get? id = some node) (h : Computes nodes node.expr values memory value last) :
    Changed nodes id.index (id.index + 1) memory last := by
  have hself : ∀ {x m : Path}, Writes nodes node x m → ∃ id' node', id.index ≤ id'.index ∧
      id'.index < id.index + 1 ∧ nodes.get? id' = some node' ∧ Writes nodes node' x m :=
    fun hwrites => ⟨id, node, Nat.le_refl _, Nat.lt_succ_self _, hnode, hwrites⟩
  generalize hexpr : node.expr = expr at h
  cases h with
  | declaration =>
    intro y m hne
    obtain rfl := Memory.slots_write hne
    exact hself (.inl ⟨_, hexpr⟩)
  | @assignment target source x base value memory hnames =>
    intro y m hne
    obtain rfl := Memory.slots_write hne
    refine hself (.inr ?_)
    -- Outside the assigned member the variable keeps what it held.
    cases hstrip : m.strip? base with
    | some rest =>
      exact ⟨target, source, base, rest, hexpr, hnames, Path.strip?_eq_some_iff.1 hstrip⟩
    | none => simp [Memory.write, Value.overwrite, hstrip] at hne
  | _ => exact .of_slots_eq rfl

/-- An execution changes slots only by the declarations and assignments among its nodes. -/
theorem Exec.changed {task : Task} {outcome : Outcome}
    (h : Exec program decls owner task memory outcome last)
    (hspans : Spans owner.nodes first task.roots final) :
    Changed owner.nodes first final memory last := by
  induction h generalizing first final with
  | node hnode _ hcomputes ih =>
    obtain ⟨below, rfl⟩ := hspans.root hnode
    obtain ⟨first', final', hfirst, hfinal, hoperands⟩ := below.operands
    refine ((ih hoperands).mono hfirst (by omega)).trans ?_
    exact (hcomputes.changed hnode).mono below.le (Nat.le_refl _)
  | leave hnode _ ih =>
    obtain ⟨below, rfl⟩ := hspans.root hnode
    obtain ⟨first', final', hfirst, hfinal, hoperands⟩ := below.operands
    exact (ih hoperands).mono hfirst (by omega)
  | call hnode hexpr _ _ _ _ _ ih _ | callStop hnode hexpr _ _ _ _ _ ih _
  | foreign hnode hexpr _ _ _ _ ih =>
    obtain ⟨below, rfl⟩ := hspans.root hnode
    rw [hexpr] at below
    exact ((ih below).mono (Nat.le_refl _) (Nat.le_succ _)).trans (.of_slots_eq rfl)
  | branch hnode hexpr _ hbranch _ ihcondition ihbranch
  | branchLeft hnode hexpr _ hbranch _ ihcondition ihbranch =>
    obtain ⟨below, rfl⟩ := hspans.root hnode
    rw [hexpr] at below
    obtain ⟨hcondition, first', hfirst, hfinal, hpart⟩ := below.branch hbranch
    have hle := hcondition.le
    have hle' := hpart.le
    refine ((ihcondition hcondition).mono (Nat.le_refl _) (by omega)).trans ?_
    exact (ihbranch hpart).mono (by omega) (by omega)
  | loop hnode hexpr _ ih | loopStop hnode hexpr _ ih =>
    obtain ⟨below, rfl⟩ := hspans.root hnode
    rw [hexpr] at below
    exact (ih below).mono (Nat.le_refl _) (Nat.le_succ _)
  | cons _ _ ihfirst ihrest =>
    obtain ⟨hfirst, hrest⟩ := hspans.head
    have := hfirst.le
    refine ((ihfirst hfirst).mono (Nat.le_refl _) hrest.le).trans ?_
    exact (ihrest hrest).mono (by omega) (Nat.le_refl _)
  | consLeft _ ih =>
    obtain ⟨hfirst, hrest⟩ := hspans.head
    exact (ih hfirst).mono (Nat.le_refl _) hrest.le
  | finish _ ih =>
    obtain ⟨hcondition, hbody⟩ := hspans.head
    exact (ih hcondition).mono (Nat.le_refl _) hbody.le
  | again _ _ _ ihfirst ihrest => exact (ihfirst hspans).trans (ihrest hspans)
  | broken _ ih => exact ih hspans
  | stopped _ ih => exact ih hspans
  | _ => exact .of_slots_eq rfl

end Regions
