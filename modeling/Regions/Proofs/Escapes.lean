import Regions.Proofs.Soundness

/-!
# What escapes from accepted programs

The main statement is about programs that are built from plain items: accesses through references do
not occur in them, and no variable has the name of a block. If the analysis accepts such a program,
no execution of one of its functions, complete or not, lets addresses of local storage escape.

* `onHeap_of_exec`: returned values and new cells of heap memory lead to heap memory only;
* `exists_escape_of_blockName`: a variable with the name of a block can overlap with the variables
  of that block, and then an accepted program may return the address of a local variable.
-/

namespace Regions.Flow

theorem analyzed_of_analyze {items : List Item} {assembly : Program.Assembly} {options : Options}
    {results : ProgramFlow} (hitems : Program.ofItems items = .ok assembly)
    (hplain : ∀ item ∈ items, item.Plain fun name => ∀ n, name ≠ blockName n)
    (htidy : assembly.declarations.Tidy)
    (haccepted : analyze assembly.program assembly.declarations options = .ok results) :
    Analyzed assembly.program assembly.declarations options where
  tidy := htidy
  shaped := fun _ howner _ hkind => Program.shaped_ofItems hitems hplain howner hkind
  runs := fun _ howner _ hkind => runs_of_analyze haccepted howner hkind

/-- An execution of a function of an accepted program gives a value that leads to heap memory only,
if the function is to give one. It only adds to heap memory, and if writes to heap memory are
checked, the new cells lead to heap memory only, however far the execution goes.

Executions evaluate both operands of every binary operation, also of `&&` and `||`
(`Computes.binary`). With operations that skip the second operand this would not hold: the analysis
takes what that operand assigns to have happened, so that `y = 0; x = &y; b && { x = new int; true
}; x` is accepted. -/
theorem onHeap_of_exec {items : List Item} {assembly : Program.Assembly} {options : Options}
    {results : ProgramFlow} {owner : Owner} {function : Function} {memory last : Memory}
    {outcome : Outcome} (hitems : Program.ofItems items = .ok assembly)
    (hplain : ∀ item ∈ items, item.Plain fun name => ∀ n, name ≠ blockName n)
    (htidy : assembly.declarations.Tidy)
    (haccepted : analyze assembly.program assembly.declarations options = .ok results)
    (howner : owner ∈ assembly.program.owners) (hkind : owner.kind = .function function)
    (hentered : memory.Entered assembly.declarations function)
    (hexec : Exec assembly.program assembly.declarations owner (.eval function.body) memory outcome
      last) :
    (∀ value, outcome = .done [value] → function.returns.isVoid = false → value.OnHeap) ∧
      memory.heap <+: last.heap ∧ (options.checkHeapStores = true →
        ∀ cell ∈ last.heap.drop memory.heap.length, cell.OnHeap) := by
  have hanalyzed := analyzed_of_analyze hitems hplain htidy haccepted
  have hshaped := hanalyzed.shaped owner howner function hkind
  have hsafe := safe_of_exec hanalyzed hexec howner hkind (hentered.typed hshaped)
  obtain ⟨context, s', hrun⟩ := hanalyzed.runs owner howner function hkind
  exact Safe.onHeap htidy hshaped hrun hentered hsafe

/-! ## A variable in the place of another -/

/-- `f { y = 0; name = S(new int); { x = 0; name.x = source }; name.x }`, where the struct `S` has
the member `x`. -/
def resetting (name : String) (source : Term) : List Item := [
  .aggregate .struct "S" [⟨"x", .pointer .int, true⟩],
  .function "f" [] (.pointer .int) (.block [
    .declare "y" (.literal (.int 0)),
    .declare name (.record (.nominal (.single "S") .struct) [("x", .newDefault .int)]),
    .block [
      .declare "x" (.literal (.int 0)),
      .assign (.member (.var name) "x") source],
    .member (.var name) "x"])]

/-- The function of `resetting`, for a source whose operand is `y`. -/
def resets (name : String) (source : Expr) : Owner where
  id := ⟨1⟩
  kind := .function ⟨.single "f", [], .pointer .int, ⟨15⟩⟩
  nodes := .ofList [
    ⟨.literal (.int 0), .int, default⟩,
    ⟨.declaration ⟨["f", "$block_0", "y"]⟩ ⟨0⟩, .void, default⟩,
    ⟨.new none, .pointer .int, default⟩,
    ⟨.structLiteral [("x", ⟨2⟩)], .nominal (.single "S") .struct, default⟩,
    ⟨.declaration ⟨["f", "$block_0", name]⟩ ⟨3⟩, .void, default⟩,
    ⟨.literal (.int 0), .int, default⟩,
    ⟨.declaration ⟨["f", "$block_0", "$block_1", "x"]⟩ ⟨5⟩, .void, default⟩,
    ⟨.var ⟨["f", "$block_0", name]⟩, .nominal (.single "S") .struct, default⟩,
    ⟨.memberAccess ⟨7⟩ "x", .pointer .int, default⟩,
    ⟨.var ⟨["f", "$block_0", "y"]⟩, .int, default⟩, ⟨source, .pointer .int, default⟩,
    ⟨.assignment ⟨8⟩ ⟨10⟩, .void, default⟩,
    ⟨.block [⟨6⟩, ⟨11⟩], .void, default⟩,
    ⟨.var ⟨["f", "$block_0", name]⟩, .nominal (.single "S") .struct, default⟩,
    ⟨.memberAccess ⟨13⟩ "x", .pointer .int, default⟩,
    ⟨.block [⟨1⟩, ⟨4⟩, ⟨12⟩, ⟨14⟩], .pointer .int, default⟩]

/-- Memory before any call. -/
def blank : Memory := ⟨fun _ => .plain, []⟩

theorem entered_blank (decls : Declarations) (function : Function) :
    blank.Entered decls function := by
  intro x m address hslot
  cases hslot

/-- The aggregates are structs without structs inside, with a reference at `x` in `S`, and the
program has the function. -/
abbrev HasFunction (owner : Owner) (assembly : Program.Assembly) (_ : ProgramFlow) : Prop :=
  assembly.declarations.Ranked (fun _ => 0) ∧ (∀ (path : Path) (aggregate : Aggregate),
    assembly.declarations.aggregates[path]? = some aggregate → aggregate.layout = .struct) ∧
  assembly.declarations.refersAt (.nominal (.single "S") .struct) (.single "x") = true ∧
  owner ∈ assembly.program.owners

/-- With a name of its own, the variable keeps what is written to its member inside the block. -/
theorem onHeap_resetting : ∃ assembly results value last,
      Program.ofItems (resetting "s" (.newWith (.var "y"))) = .ok assembly ∧
      analyze assembly.program assembly.declarations {} = .ok results ∧
      Exec assembly.program assembly.declarations (resets "s" (.new (some ⟨9⟩)))
      (.eval ⟨15⟩) blank (.done [value]) last ∧
      value .whole = some (.heap 1) ∧ value.OnHeap ∧ blank.heap <+: last.heap ∧
      ∀ cell ∈ last.heap.drop blank.heap.length, cell.OnHeap := by
  have h : Accepts (resetting "s" (.newWith (.var "y"))) {}
      (HasFunction (resets "s" (.new (some ⟨9⟩)))) := by
    decide +kernel
  obtain ⟨assembly, hitems, results, haccepted, hranked, hstructs, hmember, howner⟩ := h
  have hplain : ∀ item ∈ resetting "s" (.newWith (.var "y")),
      item.Plain fun name => ∀ n, name ≠ blockName n := by
    have hname : ∀ name ∈ ["y", "s", "x"], ∀ n, name ≠ blockName n := by
      intro name hname
      exact ne_blockName (by revert name; decide)
    simp [resetting, Item.Plain, Term.Plain, Term.PlainList, Term.PlainFields, Term.Place, hname]
  have hexec : ∃ value last,
      Exec assembly.program assembly.declarations (resets "s" (.new (some ⟨9⟩)))
      (.eval ⟨15⟩) blank (.done [value]) last ∧ value .whole = some (.heap 1) := by
    refine ⟨_, _,
      .node rfl (.cons (.node rfl (.cons (.node rfl .nil .literal) .nil) .declaration) <|
      .cons (.node rfl (.cons (.node rfl (.cons (.node rfl .nil .newDefault) .nil)
        .structLiteral) .nil) .declaration) <|
      .cons (.node rfl (.cons (.node rfl (.cons (.node rfl .nil .literal) .nil) .declaration) <|
        .cons (.node rfl (.cons (.node rfl (.cons (.node rfl .nil .var) .nil) .newWith) .nil)
          (.assignment (.member rfl rfl (.var rfl rfl)))) .nil) .block) <|
      .cons (.node rfl (.cons (.node rfl .nil .var) .nil) .memberAccess) .nil) .block, ?_⟩
    exact if_pos hmember
  obtain ⟨value, last, hexec, hvalue⟩ := hexec
  obtain ⟨honHeap, hgrows, hcells⟩ := onHeap_of_exec hitems hplain
    (Declarations.tidy_of_ranked hranked hstructs) haccepted howner rfl (entered_blank _ _) hexec
  exact ⟨assembly, results, value, last, hitems, haccepted, hexec, hvalue, honHeap value rfl rfl,
    hgrows, hcells rfl⟩

/-- A variable with the name of the block inside which its member is set: the variable `x` of the
block has the path of the member, so that what is set there counts as a change to the variable of
the block, and is not passed on. The function is accepted, and returns the address of `y`. -/
theorem exists_escape_of_blockName : ∃ assembly results value last,
      Program.ofItems (resetting (blockName 1) (.addressOf (.var "y"))) = .ok assembly ∧
      (∀ item ∈ resetting (blockName 1) (.addressOf (.var "y")), item.Plain fun _ => True) ∧
      assembly.declarations.Tidy ∧
      analyze assembly.program assembly.declarations {} = .ok results ∧
      resets (blockName 1) (.addressOf ⟨9⟩) ∈ assembly.program.owners ∧
      blank.Entered assembly.declarations ⟨.single "f", [], .pointer .int, ⟨15⟩⟩ ∧
      Exec assembly.program assembly.declarations
      (resets (blockName 1) (.addressOf ⟨9⟩)) (.eval ⟨15⟩) blank (.done [value]) last ∧
      ¬ value.OnHeap := by
  have h : Accepts (resetting (blockName 1) (.addressOf (.var "y"))) {}
      (HasFunction (resets (blockName 1) (.addressOf ⟨9⟩))) := by
    decide +kernel
  obtain ⟨assembly, hitems, results, haccepted, hranked, hstructs, hmember, howner⟩ := h
  have hexec : ∃ value last, Exec assembly.program assembly.declarations
      (resets (blockName 1) (.addressOf ⟨9⟩)) (.eval ⟨15⟩)
        blank (.done [value]) last ∧
      value .whole = some (.slot ⟨["f", "$block_0", "y"]⟩ .whole) := by
    refine ⟨_, _,
      .node rfl (.cons (.node rfl (.cons (.node rfl .nil .literal) .nil) .declaration) <|
      .cons (.node rfl (.cons (.node rfl (.cons (.node rfl .nil .newDefault) .nil)
        .structLiteral) .nil) .declaration) <|
      .cons (.node rfl (.cons (.node rfl (.cons (.node rfl .nil .literal) .nil) .declaration) <|
        .cons (.node rfl (.cons (.node rfl .nil (.addressOf (.var rfl rfl))) .nil)
          (.assignment (.member rfl rfl (.var rfl rfl)))) .nil) .block) <|
      .cons (.node rfl (.cons (.node rfl .nil .var) .nil) .memberAccess) .nil) .block, ?_⟩
    exact if_pos hmember
  obtain ⟨value, last, hexec, hvalue⟩ := hexec
  refine ⟨assembly, results, value, last, hitems, ?_,
    Declarations.tidy_of_ranked hranked hstructs,
    haccepted, howner, entered_blank _ _, hexec, fun honHeap => ?_⟩
  · simp [resetting, Item.Plain, Term.Plain, Term.PlainList, Term.PlainFields, Term.Place]
  · cases honHeap _ _ hvalue

end Regions.Flow
