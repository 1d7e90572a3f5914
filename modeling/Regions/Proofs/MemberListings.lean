import Mathlib.Data.List.Flatten
import Regions.Proofs.Layouts

/-!
# Listings of members

What the list of members says about a type, also where aggregates contain each other by value and
the list is cut short.

* `passing_value_iff`: values of a type refer to nothing exactly if no reference is inside them, and
  that can be read off the members;
* `block_of_mem_membersWithin`: the members of a member stand together in the list;
* `members_depthFirst`: the list has the paths that can be followed without looking into an
  aggregate twice, in the order of a walk through the declarations;
* `members_of_part`: where no aggregate contains itself, the members of a member are the members
  below it.
-/

namespace Regions
namespace Declarations

open Relation

variable {decls : Declarations} {ty inner : Ty} {visiting : List Path} {base path outer : Path}
  {members : List (Path × Ty)} {aggregate : Aggregate}

/-! ## Values that refer to nothing -/

/-- A type that is contained in another one is found there without looking into an aggregate
twice. -/
theorem exists_unfolds_of_contains (h : ReflTransGen (decls.ContainsOutside visiting) ty inner) :
    ∃ names, decls.Unfolds visiting ty names inner := by
  -- Each aggregate that is entered leaves fewer to enter.
  induction hn : decls.unopened visiting using Nat.strongRecOn generalizing visiting ty with
  | _ n ih =>
    rcases ReflTransGen.cases_head h with rfl | ⟨next, ⟨hcontains, houtside⟩, -⟩
    · exact ⟨[], .whole⟩
    · obtain ⟨path, aggregate, hpath, hdecl, -⟩ := hcontains
      have hnew : path ∉ visiting := fun hold => houtside path hold hpath
      rcases outside_of_aggregate hpath hdecl h with rfl | ⟨member, hmember, hreach⟩
      · exact ⟨[], .whole⟩
      · obtain ⟨names, hrest⟩ := ih _ (hn ▸ decls.unopened_cons_lt hdecl hnew) hreach rfl
        exact ⟨member.name :: names, .member hpath hdecl hnew hmember hrest⟩

theorem exists_passing {tracked : Bool} (h : decls.tracked ty = .ok tracked) :
    ∃ passing, decls.passing ty = .ok passing ∧ (passing = .value ↔ tracked = false) := by
  unfold passing
  split
  · rename_i href
    have htracked := (tracked_iff h).2 ⟨ty, .refl, href⟩
    exact ⟨.reference, rfl, by simp [htracked]⟩
  · refine ⟨if tracked then .holder else .value, by rw [h]; rfl, ?_⟩
    cases tracked <;> simp

/-- If no reference is listed, none is contained. -/
theorem isReference_of_members (h : decls.members ty = .ok members)
    (hlisted : ∀ member ∈ members, member.2.isReference = false)
    (hreach : ReflTransGen decls.Contains ty inner) : inner.isReference = false := by
  have hoff : ∀ a b, decls.Contains a b → decls.ContainsOutside [] a b :=
    fun _ _ hstep => ⟨hstep, by simp⟩
  obtain ⟨names, hunfolds⟩ :=
    exists_unfolds_of_contains (ReflTransGen.mono hoff ty inner hreach)
  rw [Declarations.members] at h
  split at h
  · rename_i hvoid
    cases hunfolds with
    | whole => cases ty <;> simp_all [Ty.isVoid, Ty.isReference]
    | member hpath => cases ty <;> simp_all [Ty.isVoid, Ty.aggregate?]
  · exact hlisted (⟨names⟩, inner) ((mem_membersWithin_iff h).2 ⟨names, rfl, hunfolds⟩)

/-- Values of a type refer to nothing exactly if no reference is contained in it, however the
aggregates in it contain each other. The list of members, though cut where an aggregate comes back,
still decides this: it lists a reference if there is one. What is inside a value that refers to
nothing refers to nothing. -/
theorem passing_value_iff (hdeclared : decls.Declared ty) :
    ∃ passing members, decls.passing ty = .ok passing ∧ decls.members ty = .ok members ∧
      (passing = .value ↔
        ∀ inner, Relation.ReflTransGen decls.Contains ty inner → inner.isReference = false) ∧
      (passing = .value ↔ ∀ member ∈ members, member.2.isReference = false) ∧
      (passing = .value → ∀ member ∈ members, decls.passing member.2 = .ok .value) := by
  obtain ⟨tracked, htracked⟩ := hdeclared.exists_tracked
  obtain ⟨passing, hpassing, hvalue⟩ := exists_passing htracked
  obtain ⟨members, hmembers⟩ := hdeclared.exists_members
  have hcontained : passing = .value ↔
      ∀ inner, Relation.ReflTransGen decls.Contains ty inner → inner.isReference = false := by
    rw [hvalue, ← Bool.not_eq_true, tracked_iff htracked]
    simp
  refine ⟨passing, members, hpassing, hmembers, hcontained, hcontained.trans ⟨?_, ?_⟩, ?_⟩
  · intro hall member hmember
    exact hall member.2 (contains_of_mem_members hmembers hmember)
  · intro hlisted r hreach
    exact isReference_of_members hmembers hlisted hreach
  · intro hpass member hmember
    have hreach := contains_of_mem_members hmembers hmember
    obtain ⟨tracked', htracked'⟩ := (hdeclared.of_contains hreach).exists_tracked
    obtain ⟨passing', hpassing', hvalue'⟩ := exists_passing htracked'
    have huntracked : tracked' = false := by
      rw [← Bool.not_eq_true, tracked_iff htracked']
      rintro ⟨r, hinner, href⟩
      rw [hcontained.1 hpass r (hreach.trans hinner)] at href
      cases href
    rw [hpassing', hvalue'.2 huntracked]

/-- Two structs that contain each other. One of them has a pointer. -/
def rings : Declarations where
  aggregates := .ofList
    [(.single "A", ⟨.single "A", .struct,
      [⟨"b", .nominal (.single "B") .struct, true⟩, ⟨"p", .pointer .int, true⟩]⟩),
    (.single "B", ⟨.single "B", .struct,
      [⟨"a", .nominal (.single "A") .struct, true⟩, ⟨"n", .int, true⟩]⟩)] compare
  functions := ∅

/-- The other struct refers to something too, by the way of the one with the pointer. -/
theorem passing_rings : rings.Declared (.nominal (.single "B") .struct) ∧
      rings.passing (.nominal (.single "B") .struct) ≠ .ok .value ∧
      ∃ members, rings.members (.nominal (.single "B") .struct) = .ok members ∧
        ¬ ∀ member ∈ members, member.2.isReference = false := by
  have hdeclared : rings.Declared (.nominal (.single "B") .struct) :=
    (declared_of_closed (by decide) (by decide)).1
  obtain ⟨passing, members, hpassing, hmembers, hcontained, hlisted, -⟩ :=
    passing_value_iff hdeclared
  have hpointer : ¬ passing = .value := by
    rw [hcontained]
    intro hall
    have hreach :=
      contains_of_typeAlong? (show rings.typeAlong? (.nominal (.single "B") .struct) ["a", "p"] =
      some (.pointer .int) by decide)
    cases hall (.pointer .int) hreach
  refine ⟨hdeclared, fun hvalue => hpointer ?_, members, hmembers, hlisted.not.1 hpointer⟩
  exact Except.ok.inj (hpassing.symm.trans hvalue)

/-! ## Blocks of the list -/

/-- An aggregate that is looked into is followed by what its members list. -/
theorem listing_of_membersWithin (h : decls.membersWithin visiting base ty = .ok members)
    (houter : ty.aggregate? = some outer) (hdecl : decls.aggregates[outer]? = some aggregate)
    (hnew : outer ∉ visiting) : ∃ listing, (∀ member ∈ aggregate.members,
        decls.membersWithin (outer :: visiting) (base.child member.name) member.ty = .ok
        (listing member)) ∧
      members = (base, ty) :: aggregate.members.flatMap listing := by
  refine membersWithin_induction
    (motive := fun visiting base ty members => ty.aggregate? = some outer →
    outer ∉ visiting → ∃ listing, (∀ member ∈ aggregate.members,
        decls.membersWithin (outer :: visiting) (base.child member.name) member.ty = .ok
        (listing member)) ∧
      members = (base, ty) :: aggregate.members.flatMap listing) ?_ ?_ h houter hnew
  · intro visiting base ty hvisited houter hnew
    exact absurd (hvisited outer houter) hnew
  · intro visiting base ty path found listing hpath hfound _ hlisting _ houter _
    cases houter.symm.trans hpath
    cases hdecl.symm.trans hfound
    exact ⟨listing, hlisting, rfl⟩

/-- What a member of an aggregate lists stands together. -/
theorem part_of_membersWithin (hdistinct : decls.Distinct ty)
    (h : decls.membersWithin visiting base ty = .ok members) (houter : ty.aggregate? = some outer)
    (hdecl : decls.aggregates[outer]? = some aggregate) (hnew : outer ∉ visiting)
    {member : Declarator} (hmember : member ∈ aggregate.members) : ∃ before part after,
      decls.membersWithin (outer :: visiting) (base.child member.name) member.ty = .ok part ∧
      members = before ++ part ++ after ∧
      ∀ entry ∈ before ++ after, entry.1.startsWith (base.child member.name) = false := by
  obtain ⟨listing, hlisting, rfl⟩ := listing_of_membersWithin h houter hdecl hnew
  obtain ⟨front, back, hsplit⟩ := List.append_of_mem hmember
  refine ⟨(base, ty) :: front.flatMap listing, listing member, back.flatMap listing,
    hlisting member hmember, by simp [hsplit], fun entry hentry => ?_⟩
  rw [← Bool.not_eq_true, Path.startsWith_iff]
  rintro ⟨below, hbelow⟩
  have hwhere : entry = (base, ty) ∨ ∃ other ∈ front ++ back, entry ∈ listing other := by
    simp only [List.mem_append, List.mem_cons, List.mem_flatMap] at hentry ⊢
    grind
  rcases hwhere with rfl | ⟨other, hother, hentry⟩
  · have hlength := congrArg (fun p => p.segments.length) hbelow
    simp [Path.child] at hlength
  · -- Paths that begin with different names are not below one another.
    have hnames := hdistinct outer outer aggregate houter .refl hdecl
    rw [hsplit, List.map_append, List.map_cons, List.nodup_middle, ← List.map_append,
      List.nodup_cons] at hnames
    have hmem : other ∈ aggregate.members := by
      rw [hsplit]
      grind
    obtain ⟨rest, hrest⟩ := base_of_mem_membersWithin (hlisting other hmem) hentry
    rw [hrest] at hbelow
    exact hnames.1 (Path.eq_of_child_append_eq hbelow ▸ List.mem_map_of_mem hother)

/-- A listed member and what is below it stand together. They are listed as the member's type alone
would be, with some more aggregates that are not looked into. -/
theorem block_of_mem_membersWithin (hdistinct : decls.Distinct ty)
    (h : decls.membersWithin visiting base ty = .ok members) (hmem : (path, inner) ∈ members) :
    ∃ within before block after, decls.membersWithin within path inner = .ok block ∧
      members = before ++ block ++ after ∧
      ∀ entry ∈ before ++ after, entry.1.startsWith path = false := by
  revert hmem
  refine membersWithin_induction (motive := fun visiting base ty members =>
    decls.membersWithin visiting base ty = .ok members → decls.Distinct ty →
      (path, inner) ∈ members →
      ∃ within before block after, decls.membersWithin within path inner = .ok block ∧
        members = before ++ block ++ after ∧
        ∀ entry ∈ before ++ after, entry.1.startsWith path = false) ?_ ?_ h h hdistinct
  · intro visiting base ty _ h _ hmem
    cases List.mem_singleton.1 hmem
    exact ⟨visiting, [], _, [], h, rfl, by simp⟩
  · intro visiting base ty outer aggregate listing houter hdecl hnew hlisting ih h hdistinct hmem
    rcases List.mem_cons.1 hmem with heq | hmem
    · cases heq
      exact ⟨visiting, [], _, [], h, (List.append_nil _).symm, by simp⟩
    · obtain ⟨member, hmember, hmem⟩ := List.mem_flatMap.1 hmem
      have hpart := hlisting member hmember
      obtain ⟨before, _, after, hpart', heq, hoff⟩ :=
        part_of_membersWithin hdistinct h houter hdecl hnew hmember
      cases hpart.symm.trans hpart'
      obtain ⟨within, before', block, after', hblock, heq', hoff'⟩ :=
        ih member hmember hpart (hdistinct.member houter hdecl hmember) hmem
      refine ⟨within, before ++ before', block, after' ++ after, hblock,
        by simp [heq, heq'], fun entry hentry => ?_⟩
      by_cases hinner : entry ∈ before' ++ after'
      · exact hoff' entry hinner
      · have houtside := hoff entry (by grind)
        rw [← Bool.not_eq_true, Path.startsWith_iff] at houtside ⊢
        rintro ⟨below, hbelow⟩
        obtain ⟨rest, rfl⟩ : ∃ rest, path = base.child member.name ++ rest :=
          base_of_mem_membersWithin hpart hmem
        exact houtside ⟨rest ++ below, by rw [hbelow, Path.append_assoc]⟩

/-- The members of an aggregate that is looked into are listed in the order of their declaration. -/
theorem siblings_of_membersWithin (h : decls.membersWithin visiting base ty = .ok members)
    (houter : ty.aggregate? = some outer) (hdecl : decls.aggregates[outer]? = some aggregate)
    (hnew : outer ∉ visiting) :
    (aggregate.members.map fun member => base.child member.name).Sublist
    (members.map Prod.fst) := by
  obtain ⟨listing, hlisting, rfl⟩ := listing_of_membersWithin h houter hdecl hnew
  rw [List.map_cons, List.map_flatMap, List.map_eq_flatMap]
  refine .cons _ (List.Sublist.flatMap_right _ fun member hmember => ?_)
  obtain ⟨below, hbelow⟩ := head_of_membersWithin (hlisting member hmember)
  simp [hbelow]

/-- What is above something that is found is found too. -/
theorem Unfolds.above {names rest : List String}
    (h : decls.Unfolds visiting ty (names ++ rest) inner) :
    ∃ middle, decls.Unfolds visiting ty names middle := by
  induction names generalizing visiting ty with
  | nil => exact ⟨ty, .whole⟩
  | cons name names ih =>
    cases h with
    | member hpath hdecl hnew hmember hrest =>
      obtain ⟨middle, hmiddle⟩ := ih hrest
      exact ⟨middle, .member hpath hdecl hnew hmember hmiddle⟩

/-! ## The order of the list -/

/-- The paths go depth first through the members of the type. -/
structure DepthFirst (decls : Declarations) (ty : Ty) (paths : List Path) : Prop where
  /-- A path comes after all paths above it. -/
  above : ∀ (i : Nat) (p q : Path), paths[i]? = some (p ++ q) → q ≠ .whole →
    ∃ j < i, paths[j]? = some p
  /-- The members of an aggregate come in the order of their declaration. -/
  siblings : ∀ (path : Path) (name : String), path.child name ∈ paths →
    ∃ inner outer aggregate,
    decls.typeAlong? ty path.segments = some inner ∧ inner.aggregate? = some outer ∧
      decls.aggregates[outer]? = some aggregate ∧
      (aggregate.members.map fun member => path.child member.name).Sublist paths
  /-- What is below a path stands together. -/
  together : ∀ path ∈ paths, ∃ before block after, paths = before ++ block ++ after ∧
    (∀ p ∈ block, p.startsWith path = true) ∧
    ∀ p ∈ before ++ after, p.startsWith path = false

/-- What is below a path is in the block of that path. -/
theorem exists_block_of_append (hdistinct : decls.Distinct ty)
    (h : decls.membersWithin [] .whole ty = .ok members) {p q : Path}
    (hmem : (p ++ q, inner) ∈ members) :
    ∃ middle within before block after, decls.Unfolds [] ty p.segments middle ∧
      decls.membersWithin within p middle = .ok block ∧ members = before ++ block ++ after ∧
      (∀ entry ∈ before ++ after, entry.1.startsWith p = false) ∧
      (p ++ q, inner) ∈ block := by
  obtain ⟨names, hnames, hunfolds⟩ := (mem_membersWithin_iff h).1 hmem
  rw [Path.whole_append] at hnames
  cases hnames
  obtain ⟨middle, hmiddle⟩ := hunfolds.above
  obtain ⟨within, before, block, after, hblock, rfl, hoff⟩ :=
    block_of_mem_membersWithin hdistinct h
      ((mem_membersWithin_iff h).2 ⟨p.segments, rfl, hmiddle⟩)
  refine ⟨middle, within, before, block, after, hmiddle, hblock, rfl, hoff, ?_⟩
  have hstarts : (p ++ q).startsWith p = true := Path.startsWith_iff.2 ⟨q, rfl⟩
  rcases List.mem_append.1 hmem with hmem | hafter
  · rcases List.mem_append.1 hmem with hbefore | hmem
    · cases (hoff _ (List.mem_append_left _ hbefore)).symm.trans hstarts
    · exact hmem
  · cases (hoff _ (List.mem_append_right _ hafter)).symm.trans hstarts

theorem depthFirst_of_membersWithin (hdistinct : decls.Distinct ty)
    (h : decls.membersWithin [] .whole ty = .ok members) :
    decls.DepthFirst ty (members.map Prod.fst) where
  above := by
    intro i p q hi hq
    rw [List.getElem?_map, Option.map_eq_some_iff] at hi
    obtain ⟨⟨_, inner⟩, hi, rfl⟩ := hi
    obtain ⟨middle, within, before, block, after, -, hblock, rfl, hoff, -⟩ :=
      exists_block_of_append hdistinct h (List.mem_of_getElem? hi)
    obtain ⟨below, rfl⟩ := head_of_membersWithin hblock
    refine ⟨before.length, ?_, by simp⟩
    -- The block begins with `p` itself, and nothing before it is below `p`.
    rcases Nat.lt_trichotomy i before.length with hlt | heq | hgt
    · rw [List.append_assoc, List.getElem?_append_left hlt] at hi
      have hoff := hoff _ (List.mem_append_left _ (List.mem_of_getElem? hi))
      cases hoff.symm.trans (Path.startsWith_iff.2 ⟨q, rfl⟩)
    · rw [heq] at hi
      simp only [List.append_assoc, List.cons_append,
        List.getElem?_append_right (Nat.le_refl _), Nat.sub_self,
        List.getElem?_cons_zero, Option.some.injEq, Prod.mk.injEq] at hi
      exact absurd (Path.append_right_inj.1 (hi.1.symm.trans (Path.append_whole p).symm)) hq
    · exact hgt
  siblings := by
    intro path name hpath
    obtain ⟨⟨_, inner⟩, hmem, rfl⟩ := List.mem_map.1 hpath
    obtain ⟨middle, within, before, block, after, hmiddle, hblock, rfl, -, hmem⟩ :=
      exists_block_of_append hdistinct h (q := .single name) hmem
    obtain ⟨names, hnames, hunfolds⟩ := (mem_membersWithin_iff hblock).1 hmem
    cases Path.append_right_inj.1 hnames
    cases hunfolds with
    | member houter hdecl hnew hmember hrest =>
      refine ⟨middle, _, _, ((unfolds_iff hdistinct).1 hmiddle).1, houter, hdecl, ?_⟩
      rw [List.map_append, List.map_append]
      exact (siblings_of_membersWithin hblock houter hdecl hnew).trans
        ((List.sublist_append_right _ _).trans (List.sublist_append_left _ _))
  together := by
    intro path hpath
    obtain ⟨⟨_, inner⟩, hmem, rfl⟩ := List.mem_map.1 hpath
    obtain ⟨within, before, block, after, hblock, rfl, hoff⟩ :=
      block_of_mem_membersWithin hdistinct h hmem
    refine ⟨before.map Prod.fst, block.map Prod.fst, after.map Prod.fst,
      by simp, fun p hp => ?_, fun p hp => ?_⟩
    · obtain ⟨entry, hentry, rfl⟩ := List.mem_map.1 hp
      exact Path.startsWith_iff.2 (base_of_mem_membersWithin hblock hentry)
    · rw [← List.map_append] at hp
      obtain ⟨entry, hentry, rfl⟩ := List.mem_map.1 hp
      exact hoff entry hentry

theorem typeAlong?_of_isReference (href : ty.isReference = true) {names : List String}
    (h : decls.typeAlong? ty names = some inner) : names = [] := by
  cases names with
  | nil => rfl
  | cons name names =>
    obtain ⟨_, _, _, hpath, -⟩ := exists_of_typeAlong?_cons h
    rw [isReference_eq_false hpath] at href
    cases href

/-- The list of members has the paths that can be followed, one member after the other, without
looking into an aggregate twice, each with the type that is found there and no path twice. It goes
depth first through the declarations, and does not look behind references. -/
theorem members_depthFirst (hdeclared : decls.Declared ty) (hdistinct : decls.Distinct ty)
    (hvoid : ty.isVoid = false) : ∃ members, decls.members ty = .ok members ∧
      (∀ names inner, (⟨names⟩, inner) ∈ members ↔
        decls.typeAlong? ty names = some inner ∧ (decls.opened ty names).Nodup) ∧
      (members.map Prod.fst).Nodup ∧ decls.DepthFirst ty (members.map Prod.fst) ∧
      ∀ member ∈ members, member.2.isReference = true →
        ∀ path ∈ members.map Prod.fst, path.startsWith member.1 = true → path = member.1 := by
  obtain ⟨members, hmembers⟩ := hdeclared.exists_members
  have hwithin := hmembers
  rw [Declarations.members, hvoid, if_neg Bool.false_ne_true] at hwithin
  have hlisted : ∀ names inner, (⟨names⟩, inner) ∈ members ↔
      decls.typeAlong? ty names = some inner ∧ (decls.opened ty names).Nodup := by
    intro names inner
    rw [mem_membersWithin_iff hwithin]
    simp [unfolds_iff hdistinct]
  refine ⟨members, hmembers, hlisted, nodup_members hdistinct hmembers,
    depthFirst_of_membersWithin hdistinct hwithin, ?_⟩
  rintro ⟨⟨above⟩, inner⟩ hmember href path hpath hstarts
  obtain ⟨⟨_, other⟩, hother, rfl⟩ := List.mem_map.1 hpath
  obtain ⟨⟨rest⟩, rfl⟩ := Path.startsWith_iff.1 hstarts
  have halong := ((hlisted (above ++ rest) other).1 hother).1
  rw [typeAlong?_append, ((hlisted above inner).1 hmember).1] at halong
  cases typeAlong?_of_isReference href halong
  exact Path.append_whole _

/-- The struct is listed once more inside itself, and is not looked into there. -/
theorem members_rings : rings.Declared (.nominal (.single "A") .struct) ∧ rings.Distinct
    (.nominal (.single "A") .struct) ∧ Ty.isVoid (.nominal (.single "A") .struct) = false ∧
      ∃ members, rings.members (.nominal (.single "A") .struct) = .ok members ∧
        (⟨["b", "a"]⟩, .nominal (.single "A") .struct) ∈ members ∧
        (∀ inner, (⟨["b", "a", "b"]⟩, inner) ∉ members) ∧
        rings.DepthFirst (.nominal (.single "A") .struct) (members.map Prod.fst) := by
  obtain ⟨hdeclared, hdistinct⟩ : rings.Declared (.nominal (.single "A") .struct) ∧
      rings.Distinct (.nominal (.single "A") .struct) := declared_of_closed (by decide) (by decide)
  obtain ⟨members, hmembers, hlisted, -, horder, -⟩ :=
    members_depthFirst hdeclared hdistinct rfl
  refine ⟨hdeclared, hdistinct, rfl, members, hmembers, (hlisted _ _).2 (by decide),
    fun inner hmem => ?_, horder⟩
  have hagain : ¬ (rings.opened (.nominal (.single "A") .struct) ["b", "a", "b"]).Nodup :=
    by decide
  exact hagain ((hlisted _ _).1 hmem).2

/-! ## The members of a member -/

/-- Where no aggregate contains itself, what is listed for a type does not depend on where it is
listed. -/
theorem membersWithin_append (hlayered : decls.Layered ty)
    (h : decls.membersWithin visiting base ty = .ok members) {above : Path} {others : List Path}
    {moved : List (Path × Ty)} (hmoved : decls.membersWithin others (above ++ base) ty = .ok moved)
    (hoff : ∀ outer, ty.aggregate? = some outer → ∀ path ∈ visiting ++ others,
      ¬ ReflTransGen decls.Encloses outer path) :
    moved = members.map fun member => (above ++ member.1, member.2) := by
  revert others moved
  refine membersWithin_induction (motive := fun visiting base ty members => decls.Layered ty →
    ∀ {others : List Path} {moved : List (Path × Ty)},
      decls.membersWithin others (above ++ base) ty = .ok moved →
      (∀ outer, ty.aggregate? = some outer → ∀ path ∈ visiting ++ others,
        ¬ ReflTransGen decls.Encloses outer path) →
      moved = members.map fun member => (above ++ member.1, member.2)) ?_ ?_ h hlayered
  · intro visiting base ty hvisited _ others moved hmoved hoff
    have hnone : ty.aggregate? = none := by
      cases houter : ty.aggregate? with
      | none => rfl
      | some outer =>
        exact absurd .refl
          (hoff outer houter outer (List.mem_append_left _ (hvisited outer houter)))
    rw [membersWithin, hnone] at hmoved
    cases hmoved
    rfl
  · intro visiting base ty outer aggregate listing houter hdecl hnew _ ih hlayered others
      moved hmoved hoff
    have hnew' : outer ∉ others :=
      fun hold => hoff outer houter outer (List.mem_append_right _ hold) .refl
    obtain ⟨listing', hlisting', rfl⟩ := listing_of_membersWithin hmoved houter hdecl hnew'
    rw [List.map_cons, List.map_flatMap]
    refine congrArg _ (List.flatMap_congr fun member hmember => ?_)
    have hmember' := hlisting' member hmember
    rw [← Path.append_child] at hmember'
    refine ih member hmember (hlayered.member houter hdecl hmember) hmember'
      fun next hnext path hpath hreach => ?_
    have hstep : decls.Encloses outer next := ⟨aggregate, hdecl, member, hmember, hnext⟩
    by_cases hself : path = outer
    · rw [hself] at hreach
      exact hlayered.acyclic outer outer houter .refl (TransGen.head' hstep hreach)
    · exact hoff outer houter path (by grind) (.head hstep hreach)

/-- What a listed member is to the member of that name, if it is below that. -/
def below? (name : String) (member : Path × Ty) : Option (Path × Ty) :=
  (member.1.strip? (.single name)).map fun rest => (rest, member.2)

theorem below?_eq_some_iff {name : String} {member below : Path × Ty} :
    below? name member = some below ↔ member = (Path.single name ++ below.1, below.2) := by
  obtain ⟨path, ty⟩ := member
  obtain ⟨rest, inner⟩ := below
  simp only [below?, Option.map_eq_some_iff, Path.strip?_eq_some_iff, Prod.mk.injEq]
  constructor
  · rintro ⟨_, rfl, rfl, rfl⟩
    exact ⟨rfl, rfl⟩
  · rintro ⟨rfl, rfl⟩
    exact ⟨rest, rfl, rfl, rfl⟩

/-- Where no aggregate contains itself, the members of a member are the members of the whole that
are below it, in the same order. So the part of a bundle that belongs to a member has the extents
for that member. -/
theorem members_of_part (hdeclared : decls.Declared ty) (hlayered : decls.Layered ty)
    {name : String} (hmember : decls.memberType? ty name = .ok (some inner))
    (hvoid : inner.isVoid = false) : ∃ members, decls.members ty = .ok members ∧
      decls.members inner = .ok (members.filterMap (below? name)) ∧
      ∀ bundle : Bundle, Bundle.Complete decls bundle ty →
        Bundle.Complete decls (bundle.scopedTo (.single name)) inner := by
  obtain ⟨outer, aggregate, member, houter, hdecl, hfind, rfl⟩ :=
    memberType?_eq_some_iff.1 hmember
  have hmem := List.mem_of_find?_eq_some hfind
  obtain rfl : member.name = name := by simpa using List.find?_some hfind
  have houterVoid : ty.isVoid = false := by
    cases ty <;> simp_all [Ty.aggregate?, Ty.isVoid]
  obtain ⟨members, hwithin⟩ := hdeclared.exists_membersWithin [] .whole
  obtain ⟨below, hbelow⟩ := (hdeclared.member houter hdecl hmem).exists_membersWithin [] .whole
  have hmembers : decls.members ty = .ok members := by
    rw [Declarations.members, houterVoid, if_neg Bool.false_ne_true, hwithin]
  have hbelowMembers : decls.members member.ty = .ok below := by
    rw [Declarations.members, hvoid, if_neg Bool.false_ne_true, hbelow]
  -- The member's part of the list is what its type lists alone, moved below its name.
  obtain ⟨before, part, after, hpart, rfl, hoff⟩ :=
    part_of_membersWithin hlayered.distinct hwithin houter hdecl List.not_mem_nil hmem
  have hmoved : part = below.map fun entry => (Path.single member.name ++ entry.1, entry.2) := by
    refine membersWithin_append (hlayered.member houter hdecl hmem) hbelow hpart
      fun next hnext path hpath hreach => ?_
    cases List.mem_singleton.1 hpath
    exact hlayered.acyclic outer outer houter .refl
      (Relation.TransGen.head' ⟨aggregate, hdecl, member, hmem, hnext⟩ hreach)
  have hstrip : (before ++ part ++ after).filterMap (below? member.name) = below := by
    have hdropped : ∀ entries ⊆ before ++ after,
        entries.filterMap (below? member.name) = [] := by
      intro entries hentries
      refine List.filterMap_eq_nil_iff.2 fun entry hentry =>
        Option.eq_none_iff_forall_ne_some.2 fun rest hrest => ?_
      have hstarts :=
        Path.startsWith_iff.2 ⟨rest.1, congrArg Prod.fst (below?_eq_some_iff.1 hrest)⟩
      cases (hoff entry (hentries hentry)).symm.trans hstarts
    have hkept : below? member.name ∘
        (fun entry => (Path.single member.name ++ entry.1, entry.2)) = some :=
      funext fun entry => below?_eq_some_iff.2 rfl
    rw [List.filterMap_append, List.filterMap_append, hdropped before (List.subset_append_left _ _),
      hdropped after (List.subset_append_right _ _), List.append_nil, hmoved,
      List.filterMap_map, hkept, List.filterMap_some]
    rfl
  refine ⟨_, hmembers, hbelowMembers.trans (congrArg Except.ok hstrip.symm),
    fun bundle hbundle => ?_⟩
  obtain ⟨_, hfound, hkeys⟩ := hbundle
  cases hmembers.symm.trans hfound
  refine ⟨below, hbelowMembers, fun path => ?_⟩
  rw [Bundle.mem_scopedTo_iff, hkeys, ← hstrip]
  simp [below?_eq_some_iff]

/-- A struct with another one inside. -/
def nests : Declarations where
  aggregates := .ofList
    [(.single "Inner",
      ⟨.single "Inner", .struct, [⟨"p", .pointer .int, true⟩, ⟨"n", .int, true⟩]⟩),
    (.single "Outer", ⟨.single "Outer", .struct,
      [⟨"k", .int, true⟩, ⟨"i", .nominal (.single "Inner") .struct, true⟩]⟩)] compare
  functions := ∅

/-- What the outer struct lists below its member `i` is what the inner one lists. -/
theorem members_nests : nests.Declared (.nominal (.single "Outer") .struct) ∧ nests.Layered
    (.nominal (.single "Outer") .struct) ∧
      nests.memberType? (.nominal (.single "Outer") .struct) "i" = .ok
      (some (.nominal (.single "Inner") .struct)) ∧
      Ty.isVoid (.nominal (.single "Inner") .struct) = false ∧
      nests.members (.nominal (.single "Outer") .struct) = .ok [
        (.whole, .nominal (.single "Outer") .struct), (⟨["k"]⟩, .int),
        (⟨["i"]⟩, .nominal (.single "Inner") .struct), (⟨["i", "p"]⟩, .pointer .int),
        (⟨["i", "n"]⟩, .int)] ∧
      nests.members (.nominal (.single "Inner") .struct) = .ok [
        (.whole, .nominal (.single "Inner") .struct), (⟨["p"]⟩, .pointer .int),
        (⟨["n"]⟩, .int)] := by
  have hranked : nests.Ranked fun path => if path = .single "Outer" then 1 else 0 := by decide
  have hproper : nests.Proper (.nominal (.single "Outer") .struct) :=
    proper_of_ranked hranked (by decide)
  have hmember : nests.memberType? (.nominal (.single "Outer") .struct) "i" =
      .ok (some (.nominal (.single "Inner") .struct)) := by rfl
  have houter : nests.members (.nominal (.single "Outer") .struct) = .ok [
      (.whole, .nominal (.single "Outer") .struct), (⟨["k"]⟩, .int),
      (⟨["i"]⟩, .nominal (.single "Inner") .struct), (⟨["i", "p"]⟩, .pointer .int),
      (⟨["i", "n"]⟩, .int)] := by
    decide +kernel
  obtain ⟨members, hmembers, hpart, -⟩ :=
    members_of_part hproper.declared hproper.layered hmember rfl
  cases houter.symm.trans hmembers
  exact ⟨hproper.declared, hproper.layered, hmember, rfl, houter, hpart⟩

end Declarations
end Regions
