import Regions.Proofs.Lineages

/-!
# Parameters stay apart

What a caller passes in for a parameter is a region of its own. As long as a function neither
assigns through references nor hands two references to one call, whatever it copies, reassigns, puts
together and reads through references, the data of one parameter never comes to hold that of
another.

The reason is that copies have one source. All that the data of a parameter holds stems from it by
copies, or was read or written through a reference; a version where executions meet holds the data,
but is not held.

* `Stems`: what the data of a parameter gets to;
* `Lineage.stems`: it gets nowhere else within the function;
* `reaches_of_foldlM`: nor do later functions take it any further;
* `parameter_not_mem_supportOf`: so it gets to no other parameter.
-/

namespace Regions

/-- The nodes assign to variables and their members only, and hand at most one reference to a
call. -/
structure Owner.Direct (decls : Declarations) (owner : Owner) (ids : List NodeId) : Prop where
  assigned : ∀ id ∈ ids, ∀ node target value, owner.nodes.get? id = some node →
    node.expr = .assignment target value → ∃ x m, Names owner.nodes target x m
  arguments : ∀ id ∈ ids, ∀ node callee arguments, owner.nodes.get? id = some node →
    node.expr = .call callee arguments →
    arguments.Pairwise fun a b => ¬ (owner.Refers decls a ∧ owner.Refers decls b)

namespace Flow

variable {X : Setting} {p : Progress X} {s : State} {function : Function} {path : Path}
  {sources : Lifetime → Option Lifetime}

/-! ## Within the function -/

/-- Assignments are to variables and their members. -/
def Setting.AssignsDirectly (X : Setting) : Prop :=
  ∀ id node target value, X.visits .value id → X.env.node id = .ok node →
    node.expr = .assignment target value → ∃ x m, Names X.env.owner.nodes target x m

/-- Where variables are assigned to, the place has a slot. -/
theorem Assigning.isSlot_slot (hsound : X.Sound function) (hdirect : X.AssignsDirectly)
    (houtlined : Outlined X s) {task : Task X} {field : Field} {place new : Extent}
    (h : Assigning s task field place new) : place.slot.isSlot = true := by
  obtain ⟨target, value, places, assigned, ty, fields, hexpr, htarget, -, -, -, -, hplace, -⟩ :=
    h.operands
  have hvisited := task.visited
  rw [h.position] at hvisited
  obtain ⟨x, m, hnames⟩ := hdirect task.id task.node target value hvisited task.found hexpr
  have hvisits : X.visits .place target :=
    hsound.closed _ _ _ hvisited task.found (.place, target) (by simp [hexpr, Expr.uses])
  exact (houtlined.anchors htarget hvisits hnames hplace).isSlot_slot

/-- The lifetime is `origin`, a copy of one that stems from it, or was read or written through a
reference. -/
inductive Stems (env : Env) (sources : Lifetime → Option Lifetime) (origin : Lifetime) :
    Lifetime → Prop
  | here : Stems env sources origin origin
  | leaf {l : Lifetime} (h : Leaf env l) : Stems env sources origin l
  | copy {l source : Lifetime} (h : sources l = some source)
      (hsource : Stems env sources origin source) : Stems env sources origin l

section

variable (hsound : X.Sound function) (hunmixed : X.Unmixed) (hdirect : X.AssignsDirectly)
  (houtlined : Outlined X s) (hnumbered : Numbered p s) {context : Context}
  (hunrelated : Unrelated X.env.scope context) {size : Nat}
  (hs : Lineage X (.start context size) p s sources)
  (hpath : path.startsWith X.env.scope = true)

include hsound hunmixed hdirect houtlined hnumbered hunrelated hs hpath

/-- What stems from the data of a parameter holds only what does so too. -/
theorem Stems.held {c x : Lifetime} (hc : Stems X.env sources (.root path .localValue) c)
    (hx : s.context.graph.Holds c x) : Stems X.env sources (.root path .localValue) x := by
  have hheld : ¬ Occurs context.graph c → c.role ≠ .temp → c.origin ≠ .heap →
    c.isSlot = false →
      c ∉ p.joins → sources c = some x ∨ sources x = some c ∨ Leaf X.env x := by
    intro hnew hrole horigin hslot hjoin
    refine hs.held hsound hunmixed houtlined hnew hrole horigin hslot hjoin ?_ hx
    intro task field place new hassigning hplace
    rw [hassigning.isSlot_slot hsound hdirect houtlined] at hplace
    cases hplace
  have hjoin : c.role ≠ .alias ∨ c.origin ≠ .localValue → c ∉ p.joins := by
    intro hne hmem
    have hcounted := hnumbered.joins c hmem
    exact hne.elim (· hcounted.role) (· hcounted.origin)
  -- In each case the lifetime is new to the graph; what differs is whether it has a source.
  cases hc with
  | here =>
    have hnew := hunrelated.not_occurs (x := .root path .localValue) hpath rfl
      (by simp [Lifetime.root, Lifetime.heap])
    rcases hheld hnew (by simp [Lifetime.root]) (by simp [Lifetime.root]) rfl
      (hjoin (.inl (by simp [Lifetime.root]))) with hsource | hcopy | hleaf
    · cases (hs.copies _ _ hsource).1
    · exact .copy hcopy .here
    · exact .leaf hleaf
  | leaf hc =>
    have horigin := hc.origin
    have hnew := hunrelated.not_occurs hc.startsWith (by simp [Lifetime.isNone, horigin])
      (by rintro rfl; simp [Lifetime.heap] at horigin)
    have hrole : c.role ≠ .temp := by cases hc <;> simp [Env.readAt, Env.writtenAt, Lifetime.root]
    rcases hheld hnew hrole (by simp [horigin]) (by simp [Lifetime.isSlot, horigin])
      (hjoin (.inr (by simp [horigin]))) with hsource | hcopy | hleaf
    · simp [(hs.copies _ _ hsource).2.1] at horigin
    · exact .copy hcopy (.leaf hc)
    · exact .leaf hleaf
  | copy h hsource =>
    obtain ⟨hrole, horigin, hjoin, hnew, -⟩ := hs.copies _ _ h
    rcases hheld hnew (by simp [hrole]) (by simp [horigin])
      (by simp [Lifetime.isSlot, horigin]) hjoin with
      hsame | hcopy | hleaf
    · cases h.symm.trans hsame
      exact hsource
    · exact .copy hcopy (.copy h hsource)
    · exact .leaf hleaf

/-- All that the data of a parameter gets to stems from it. -/
theorem Lineage.stems {l : Lifetime} (hreach : s.context.graph.Reaches (.root path .localValue) l) :
    Stems X.env sources (.root path .localValue) l := by
  induction hreach with
  | refl => exact .here
  | tail _ hx ih =>
    exact ih.held hsound hunmixed hdirect houtlined hnumbered hunrelated hs hpath hx

end

/-- What stems from the data of a parameter is no other region of a caller. -/
theorem Stems.classify {base : State} (hs : Lineage X base p s sources) {origin l : Lifetime}
    (h : Stems X.env sources origin l) :
    l = origin ∨ l.role = .alias ∧ l.origin = .localValue ∨ l.origin = .temporary := by
  cases h with
  | here => exact .inl rfl
  | leaf h => exact .inr (.inr h.origin)
  | copy h =>
    obtain ⟨hrole, horigin, -⟩ := hs.copies _ _ h
    exact .inr (.inl ⟨hrole, horigin⟩)

/-! ## Later functions -/

/-- Lifetimes that are not below the path hold none that are. -/
def Secluded (path : Path) (context : Context) : Prop :=
  ∀ c x, context.graph.Holds c x → c.isNone = false ∧
    (Within (fun other => ¬ other.startsWith path = true) c →
    x.Slotted ∧ Within (fun other => ¬ other.startsWith path = true) x)

variable {decls : Declarations} {options : Options} {owner : Owner} {context : Context} {s' : State}

/-- A function whose path is apart adds nothing to what the lifetimes below the path hold. -/
theorem Secluded.step (h : Secluded path context) (hinside : owner.Inside function)
    (hapart : function.path.Apart path) (hrun : RunsOwner decls options owner function context s') :
    Secluded path s'.context ∧ ∀ c x, c.path.startsWith path = true → c ≠ .heap →
      s'.context.graph.Holds c x → context.graph.Holds c x := by
  have hedges : ∀ c x, s'.context.graph.Holds c x → context.graph.Holds c x ∨
    c.isNone = false ∧
      (c = .heap ∨ Within (fun other => ¬ other.startsWith path = true) c) ∧ x.Slotted ∧
      Within (fun other => ¬ other.startsWith path = true) x := by
    intro c x hx
    have henv : (Env.ofFunction decls options owner function).owner.Inside function := hinside
    refine within_of_runs henv rfl (fun other hother => ?_) h hrun hx
    rw [hapart.not_startsWith hother]
    exact Bool.false_ne_true
  refine ⟨fun c x hx => ?_, fun c x hpath hheap hx => ?_⟩
  · rcases hedges c x hx with hold | ⟨hsome, -, hslotted, hwithin⟩
    · exact h c x hold
    · exact ⟨hsome, fun _ => ⟨hslotted, hwithin⟩⟩
  · rcases hedges c x hx with hold | ⟨-, hheap' | hwithin, -⟩
    · exact hold
    · exact absurd hheap' hheap
    · exact absurd hpath hwithin.1

/-- Neither do many such functions. -/
theorem Secluded.run {owners : List Owner} {results final : ProgramFlow}
    (h : Secluded path results.context)
    (howners : ∀ owner ∈ owners, ∀ function, owner.kind = .function function →
      owner.Inside function ∧ function.path.Apart path)
    (hrun : owners.foldlM (analyzeOwner decls options) results = .ok final) :
    Secluded path final.context ∧ ∀ c x, c.path.startsWith path = true → c ≠ .heap →
      final.context.graph.Holds c x → results.context.graph.Holds c x := by
  refine context_of_foldlM (P := fun context => Secluded path context ∧
    ∀ c x, c.path.startsWith path = true → c ≠ .heap → context.graph.Holds c x →
      results.context.graph.Holds c x) ?_ ⟨h, fun _ _ _ _ hx => hx⟩ hrun
  intro owner howner function hkind context s' hcontext hruns
  obtain ⟨hinside, hapart⟩ := howners owner howner function hkind
  obtain ⟨hsecluded, hold⟩ := hcontext.1.step hinside hapart hruns
  exact ⟨hsecluded, fun c x hpath hheap hx => hcontext.2 c x hpath hheap
    (hold c x hpath hheap hx)⟩

theorem secluded_initial (path : Path) : Secluded path .initial :=
  fun c x hx => absurd hx (Digraph.not_adj_empty c x)

/-- The function itself lets its own lifetimes hold its own only. -/
theorem Secluded.own (h : Secluded function.path context)
    (hunrelated : Unrelated function.path context) (hinside : owner.Inside function)
    (hrun : RunsOwner decls options owner function context s') :
    Secluded function.path s'.context ∧ ∀ c x, Own
    (.ofFunction decls options owner function) c →
      s'.context.graph.Holds c x → Own (.ofFunction decls options owner function) x := by
  have hknown : ∀ c x, context.graph.Holds c x → c.isNone = false ∧
      ¬ Own (.ofFunction decls options owner function) c := by
    intro c x hx
    have hsome := (hunrelated.graph c x hx).1
    exact ⟨hsome, fun hown => hunrelated.not_occurs hown.1 hsome hown.2 ⟨x, .inl hx⟩⟩
  have henv : (Env.ofFunction decls options owner function).owner.Inside function := hinside
  have hedges := (confined_of_runs henv rfl hknown hrun).1
  refine ⟨fun c x hx => ?_, fun c x hown hx => ?_⟩
  · rcases hedges c x hx with hold | ⟨hsome, hheap | hown, -⟩
    · exact h c x hold
    · exact ⟨hsome, fun hwithin => absurd hheap hwithin.2⟩
    · exact ⟨hsome, fun hwithin => absurd hown.1 hwithin.1⟩
  · rcases hedges c x hx with hold | ⟨-, -, hx⟩
    · exact absurd hown (hknown c x hold).2
    · exact hx

/-- When other functions come before and after, the data of a function gets to what it gets to at
the end of the function. -/
theorem reaches_of_foldlM {items : List Item} {assembly : Program.Assembly}
    (hitems : Program.ofItems items = .ok assembly) (hkind : owner.kind = .function function)
    (hapart : ∀ other ∈ assembly.program.owners, other.id ≠ owner.id →
      ∀ f, other.kind = .function f →
      f.path.Apart function.path) {before between after : List Owner}
    (howners : assembly.program.owners.toList = before ++ owner :: (between ++ after))
    {results : ProgramFlow}
    (hrun : (before ++ owner :: between).foldlM (analyzeOwner assembly.declarations options)
      { owners := ∅, context := .initial } = .ok results) :
    ∃ context s', Precedes assembly.program assembly.declarations options context owner ∧
      Unrelated function.path context ∧
      RunsOwner assembly.declarations options owner function context s' ∧
      ∀ l, l.path.startsWith function.path = true → l ≠ .heap →
        ∀ k, results.context.graph.Reaches l k → s'.context.graph.Reaches l k := by
  have hothers : ∀ other ∈ before ++ (between ++ after), ∀ f, other.kind = .function f →
      other.Inside f ∧ f.path.Apart function.path := by
    intro other hother f hf
    obtain ⟨hmem, hne⟩ := others_of_ofItems hitems howners hother
    exact ⟨Program.inside_of_mem hitems hmem hf, hapart other hmem hne f hf⟩
  have howner : owner ∈ assembly.program.owners := by
    rw [← Array.mem_toList_iff, howners]
    simp
  obtain ⟨known, s', hbefore, hruns, hbetween⟩ := exists_runs_of_foldlM hkind hrun
  have hprecedes : Precedes assembly.program assembly.declarations options known.context owner :=
    ⟨before, between ++ after, known, howners, hbefore, rfl⟩
  have hunrelated := hprecedes.unrelated hitems hapart
  have hknown := (Secluded.run (secluded_initial function.path)
    (fun other hother f hf => hothers other (List.mem_append_left _ hother) f hf) hbefore).1
  obtain ⟨hsecluded, hown⟩ :=
    hknown.own hunrelated (Program.inside_of_mem hitems howner hkind) hruns
  have hlater := (Secluded.run hsecluded (fun other hother f hf =>
    hothers other (List.mem_append_right _ (List.mem_append_left _ hother)) f hf) hbetween).2
  refine ⟨known.context, s', hprecedes, hunrelated, hruns, fun l hpath hheap k hreach => ?_⟩
  -- Every step on the way starts from a lifetime of the function, so that it was there at its end.
  suffices hall : s'.context.graph.Reaches l k ∧
      Own (.ofFunction assembly.declarations options owner function) k from hall.1
  induction hreach with
  | refl => exact ⟨.refl _ _, hpath, hheap⟩
  | tail _ hx ih =>
    obtain ⟨hreach, hk⟩ := ih
    have hx := hlater _ _ hk.1 hk.2 hx
    exact ⟨hreach.trans (.of_holds hx), hown _ _ hk hx⟩

/-! ## Parameters -/

/-- In a function that assigns only to variables and their members, and hands at most one reference
to a call, the data of a parameter gets to copies and to what is read through references, and never
to the data of another parameter. -/
theorem parameter_not_mem_supportOf {items : List Item} {assembly : Program.Assembly}
    (hitems : Program.ofItems items = .ok assembly) {owner : Owner} {function : Function}
    (hkind : owner.kind = .function function)
    (hapart : ∀ other ∈ assembly.program.owners, other.id ≠ owner.id →
      ∀ f, other.kind = .function f →
      f.path.Apart function.path) (hlegible : owner.Legible assembly.declarations function)
    {ids : List NodeId} (hwalk : owner.walk = .ok ids) (hnodup : ids.Nodup)
    (hdirect : owner.Direct assembly.declarations ids) {before between after : List Owner}
    (howners : assembly.program.owners.toList = before ++ owner :: (between ++ after))
    {options : Options} {results : ProgramFlow}
    (hrun : (before ++ owner :: between).foldlM (analyzeOwner assembly.declarations options)
      { owners := ∅, context := .initial } = .ok results) {a b : Parameter}
    (hb : b ∈ function.parameters) (m n : Path) : .root (a.path ++ m) .localValue ∉
        results.context.graph.supportOf (.root (b.path ++ n) .localValue) ∧
      ∀ l ∈ results.context.graph.supportOf (.root (b.path ++ n) .localValue),
        l.role = .alias ∧ l.origin = .localValue ∨ l.origin = .temporary := by
  have howner : owner ∈ assembly.program.owners := by
    rw [← Array.mem_toList_iff, howners]
    simp
  have hsound := sound_ofOwner hitems howner hkind hlegible hwalk hnodup options
  have hwalkFrom := (Owner.walk_eq hkind).symm.trans hwalk
  have hassigns : (Setting.ofOwner assembly.declarations options owner function).AssignsDirectly :=
    fun id node target value hvisits hnode hexpr =>
      hdirect.assigned id (mem_walk_of_traverses hvisits hwalkFrom)
      node target value (env_node_eq_ok_iff.1 hnode) hexpr
  have hunmixed : (Setting.ofOwner assembly.declarations options owner function).Unmixed :=
    unmixed_of_arguments hwalkFrom hdirect.arguments
  obtain ⟨context, s, hprecedes, hunrelated, hruns, hreaches⟩ :=
    reaches_of_foldlM hitems hkind hapart howners hrun
  obtain ⟨p, sources, -, hnumbered, houtlined, hlineage⟩ :=
    Point.lineage hsound hprecedes hunrelated (.ends hruns)
  have hpath : (b.path ++ n).startsWith function.path = true :=
    Path.startsWith_append (hsound.inside.parameters b hb) n
  have hall : ∀ l ∈ results.context.graph.supportOf (.root (b.path ++ n) .localValue),
      l.role = .alias ∧ l.origin = .localValue ∨ l.origin = .temporary := by
    intro l hl
    obtain ⟨hne, hreach⟩ := Outlives.mem_supportOf_iff_reaches.1 hl
    have hreach :=
      hreaches (.root (b.path ++ n) .localValue) hpath (by simp [Lifetime.root, Lifetime.heap]) l
      hreach
    have hstems :=
      hlineage.stems hsound hunmixed hassigns houtlined hnumbered hunrelated hpath hreach
    exact (hstems.classify hlineage).resolve_left hne
  refine ⟨fun hmem => ?_, hall⟩
  rcases hall _ hmem with ⟨hrole, -⟩ | horigin
  · cases hrole
  · cases horigin

/-- Decides that the nodes assign only to variables and hand at most one reference to a call. -/
def isDirect (decls : Declarations) (owner : Owner) (ids : List NodeId) : Bool :=
  ids.all fun id => (owner.nodes.get? id).all fun node =>
    match node.expr with
    | .assignment target _ =>
      match placePath? owner owner.depth target with
      | .ok (some _) => true
      | _ => false
    | .call _ arguments =>
        decide (arguments.Pairwise fun a b => ¬ (owner.Refers decls a ∧ owner.Refers decls b))
    | _ => true

theorem direct_of_isDirect {decls : Declarations} {owner : Owner} {ids : List NodeId}
    (h : isDirect decls owner ids = true) : owner.Direct decls ids := by
  have hnode : ∀ id ∈ ids, ∀ node, owner.nodes.get? id = some node → _ :=
      fun id hid node hnode =>
    (Option.all_eq_true _ _).1 (List.all_eq_true.1 h id hid) node hnode
  refine ⟨fun id hid node target value hget hexpr => ?_,
    fun id hid node callee arguments hget hexpr => ?_⟩
  · have := hnode id hid node hget
    simp only [hexpr] at this
    split at this
    · rename_i path hpath
      obtain ⟨x, m, hnames, -⟩ := exists_names_of_placePath? hpath
      exact ⟨x, m, hnames⟩
    · cases this
  · have := hnode id hid node hget
    simpa only [hexpr, decide_eq_true_eq] using this

/-- Decides that all members have names of their own, struct literals fit to their types, and no
name begins as those of blocks do. -/
def LooksLegible (decls : Declarations) (owner : Owner) (function : Function) : Prop :=
  (∀ (path : Path) (aggregate : Aggregate), decls.aggregates[path]? = some aggregate →
    (aggregate.members.map Declarator.name).Nodup) ∧
  (∀ id node, owner.nodes.get? id = some node →
  ∀ fields, node.expr = .structLiteral fields →
    ∀ field ∈ fields, ∃ value, owner.nodes.get? field.2 = some value ∧
      decls.memberType? node.ty field.1 = .ok (some value.ty)) ∧ owner.NamesPlainly function

instance {decls : Declarations} {owner : Owner} {function : Function} :
    Decidable (LooksLegible decls owner function) := by
  delta LooksLegible
  infer_instance

theorem LooksLegible.legible {decls : Declarations} {owner : Owner} {function : Function}
    (h : LooksLegible decls owner function) : owner.Legible decls function := by
  obtain ⟨hdistinct, hliterals, hnames⟩ := h
  exact ⟨⟨fun _ _ _ _ path aggregate _ _ hdecl => hdistinct path aggregate hdecl,
    fun id node fields hnode => hliterals id node hnode fields⟩, hnames.unblurred⟩

/-- With `struct Pair { int* left; int* right; void mark; Pair rest; }`, which has a member without
values and contains itself, and `void keep(int* p, int n)`, a function that mixes up its parameters
`f(int** a, int** b, Pair s) { c = a; e = b; while (true) { a = e; if (true) { b = c } c = a } d =
Pair { left: *a, right: s.left }; s.right = d.left; keep(s.right, 0) }`, and another one after
it. -/
def mingling : List Item := [
  .aggregate .struct "Pair" [⟨"left", .pointer .int, true⟩, ⟨"right", .pointer .int, true⟩,
    ⟨"mark", .void, true⟩, ⟨"rest", .nominal (.ofString "Pair") .struct, true⟩],
  .signature "keep" [⟨"p", .pointer .int, true⟩, ⟨"n", .int, true⟩] .void,
  .function "f"
  [⟨"a", .pointer (.pointer .int), true⟩, ⟨"b", .pointer (.pointer .int), true⟩,
      ⟨"s", .nominal (.ofString "Pair") .struct, true⟩] .void (.block [
    .declare "c" (.var "a"),
    .declare "e" (.var "b"),
    .loop (.literal (.bool true)) (.block [
      .assign (.var "a") (.var "e"),
      .cond (.literal (.bool true)) (.block [.assign (.var "b") (.var "c")]) none,
      .assign (.var "c") (.var "a")]),
    .declare "d" (.record (.nominal (.ofString "Pair") .struct)
      [("left", .dereference (.var "a")), ("right", .member (.var "s") "left")]),
    .assign (.member (.var "s") "right") (.member (.var "d") "left"),
    .call "keep" [.member (.var "s") "right", .literal (.int 0)]]),
  .function "late" [⟨"a", .pointer .int, true⟩] .void (.block [.declare "c" (.var "a")])]

/-- A function with such parameters is apart from all others, and its body is a tree that assigns
only to variables. -/
def HasDirect (assembly : Program.Assembly) (parameters : List Path)
    (P : Owner → Function → Prop) : Prop :=
  ∃ owner ∈ assembly.program.owners, ∃ function, owner.kind = .function function ∧
    P owner function ∧ (∀ path ∈ parameters, ∃ p ∈ function.parameters, p.path = path) ∧
    (∀ other ∈ assembly.program.owners, other.id ≠ owner.id →
    ∀ f, other.kind = .function f → f.path.Apart function.path) ∧
    ∃ ids, owner.walk = .ok ids ∧ ids.Nodup ∧ isDirect assembly.declarations owner ids = true

instance {assembly : Program.Assembly} {parameters : List Path} {P : Owner → Function → Prop}
    [∀ owner function, Decidable (P owner function)] :
    Decidable (HasDirect assembly parameters P) := by
  delta HasDirect
  infer_instance

/-- A version of `a` is held by what was passed in for `b`; what was passed in for `a` is not. -/
theorem parameter_not_mem_of_mingling : ∃ assembly results owner function ids,
    Program.ofItems mingling = .ok assembly ∧
    analyze assembly.program assembly.declarations {} = .ok results ∧
    owner ∈ assembly.program.owners ∧
    owner.kind = .function function ∧ owner.Legible assembly.declarations function ∧
    owner.walk = .ok ids ∧ ids.Nodup ∧ owner.Direct assembly.declarations ids ∧
    ⟨⟨["f", "a"]⟩, 4, .alias, .localValue⟩ ∈
      results.context.graph.supportOf (.root ⟨["f", "b"]⟩ .localValue) ∧
    .root ⟨["f", "a"]⟩ .localValue ∉ results.context.graph.supportOf
    (.root ⟨["f", "b"]⟩ .localValue) := by
  have h : Accepts mingling {} fun assembly results =>
    HasDirect assembly [⟨["f", "a"]⟩, ⟨["f", "b"]⟩]
        (fun owner function => LooksLegible assembly.declarations owner function) ∧
      ⟨⟨["f", "a"]⟩, 4, .alias, .localValue⟩ ∈
        results.context.graph.supportOf (.root ⟨["f", "b"]⟩ .localValue) := by
    decide +kernel
  obtain ⟨assembly, hitems, results, hanalyze,
    ⟨owner, howner, function, hkind, hlegible, hparameters, hapart, ids,
    hwalk, hnodup, hdirect⟩, hheld⟩ := h
  have hlegible := hlegible.legible
  have hdirect := direct_of_isDirect hdirect
  obtain ⟨a, -, ha⟩ := hparameters ⟨["f", "a"]⟩ (by simp)
  obtain ⟨b, hb, hpath⟩ := hparameters ⟨["f", "b"]⟩ (by simp)
  obtain ⟨before, after, howners⟩ := List.append_of_mem (Array.mem_toList_iff.2 howner)
  have hrun := foldlM_of_analyze hanalyze
  rw [howners] at hrun
  have hsplit : assembly.program.owners.toList = before ++ owner :: (after ++ []) := by
    rw [List.append_nil]
    exact howners
  have hnot := (parameter_not_mem_supportOf hitems hkind hapart hlegible hwalk hnodup hdirect
    hsplit hrun (a := a) hb .whole .whole).1
  rw [Path.append_whole, Path.append_whole, ha, hpath] at hnot
  exact ⟨assembly, results, owner, function, ids, hitems, hanalyze, howner, hkind, hlegible,
    hwalk, hnodup, hdirect, hheld, hnot⟩

/-- With `struct S { int* x; }`, the function `f(int* a, int* b) { $block_1 = S { x: a }; { x = b }
}`: the variable `x` of the inner block has the path of the member `x` of the variable before it. -/
def overlapping : List Item := [
  .aggregate .struct "S" [⟨"x", .pointer .int, true⟩],
  .function "f" [⟨"a", .pointer .int, true⟩, ⟨"b", .pointer .int, true⟩] .void (.block [
    .declare "$block_1" (.record (.nominal (.ofString "S") .struct) [("x", .var "a")]),
    .block [.declare "x" (.var "b")]])]

/-- Where a variable may have the name of a block, the data of one parameter can get to that of
another. -/
theorem exists_parameter_mem_of_overlapping : ∃ assembly results owner function ids a b,
    Program.ofItems overlapping = .ok assembly ∧
    analyze assembly.program assembly.declarations {} = .ok results ∧
    owner ∈ assembly.program.owners ∧ owner.kind = .function function ∧
    (∀ other ∈ assembly.program.owners, other.id ≠ owner.id →
      ∀ f, other.kind = .function f → f.path.Apart function.path) ∧
    owner.walk = .ok ids ∧ ids.Nodup ∧ owner.Direct assembly.declarations ids ∧
    a ∈ function.parameters ∧ b ∈ function.parameters ∧ a.path ≠ b.path ∧
    .root a.path .localValue ∈ results.context.graph.supportOf (.root b.path .localValue) := by
  have h : Accepts overlapping {} fun assembly results =>
      HasDirect assembly [⟨["f", "a"]⟩, ⟨["f", "b"]⟩] (fun _ _ => True) ∧
        .root ⟨["f", "a"]⟩ .localValue ∈
        results.context.graph.supportOf (.root ⟨["f", "b"]⟩ .localValue) := by
    decide +kernel
  obtain ⟨assembly, hitems, results, hanalyze,
    ⟨owner, howner, function, hkind, -, hparameters, hapart, ids, hwalk,
    hnodup, hdirect⟩, hheld⟩ := h
  obtain ⟨a, ha, hpath⟩ := hparameters ⟨["f", "a"]⟩ (by simp)
  obtain ⟨b, hb, hpath'⟩ := hparameters ⟨["f", "b"]⟩ (by simp)
  exact ⟨assembly, results, owner, function, ids, a, b, hitems, hanalyze, howner, hkind, hapart,
    hwalk, hnodup, direct_of_isDirect hdirect, ha, hb, by rw [hpath, hpath']; decide, by
    rw [hpath, hpath']; exact hheld⟩

end Flow
end Regions
