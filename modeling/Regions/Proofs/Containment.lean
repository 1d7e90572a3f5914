import Mathlib.Logic.Relation
import Regions.Declarations.Members
import Regions.Proofs.Bundles
import Regions.Proofs.Checks

/-!
# Containment of types

A value of an aggregate type contains its members by value. The walks over members cut a type that
is inside itself; `Contains` is the relation that they walk along, without any cut.

* `tracked_iff`: a type carries references exactly if it contains a reference;
* `Unfolds`: member names that lead from a type to another one, no aggregate being looked into
  twice;
* `mem_membersWithin_iff`: the members of a type are what it unfolds to;
* `fields_eq`, `tracked_of_mem_fields`, `exists_tracked_member`: what the fields of a type say about
  it.
-/

namespace Regions
namespace Declarations

open Relation

variable {decls : Declarations} {visiting : List Path} {ty inner : Ty} {path : Path}
  {aggregate : Aggregate}

/-- Values of the outer type have a member of the inner type. -/
def Contains (decls : Declarations) (outer inner : Ty) : Prop :=
  ∃ path aggregate, outer.aggregate? = some path ∧ decls.aggregates[path]? = some aggregate ∧
    ∃ member ∈ aggregate.members, member.ty = inner

/-- Containment that does not look into the aggregates `visiting`. -/
def ContainsOutside (decls : Declarations) (visiting : List Path) (outer inner : Ty) : Prop :=
  decls.Contains outer inner ∧ ∀ path ∈ visiting, outer.aggregate? ≠ some path

theorem isReference_eq_false (h : ty.aggregate? = some path) : ty.isReference = false := by
  cases ty <;> simp_all [Ty.aggregate?, Ty.isReference]

/-- What is reached from an aggregate is the aggregate itself, or is reached from one of its members
without coming back. -/
theorem outside_of_aggregate (hpath : ty.aggregate? = some path)
    (hdecl : decls.aggregates[path]? = some aggregate)
    (h : ReflTransGen (decls.ContainsOutside visiting) ty inner) :
    inner = ty ∨ ∃ member ∈ aggregate.members,
      ReflTransGen (decls.ContainsOutside (path :: visiting)) member.ty inner := by
  induction h with
  | refl => exact .inl rfl
  | @tail m n _ hstep ih =>
    right
    obtain ⟨hcontains, houtside⟩ := hstep
    by_cases hm : m.aggregate? = some path
    · -- The walk is at the aggregate once more: start again from here.
      obtain ⟨path', aggregate', hpath', hdecl', member, hmember, hty⟩ := hcontains
      obtain rfl : path = path' := Option.some.inj (hm.symm.trans hpath')
      obtain rfl : aggregate = aggregate' := Option.some.inj (hdecl.symm.trans hdecl')
      exact ⟨member, hmember, hty ▸ .refl⟩
    · rcases ih with rfl | ⟨member, hmember, hreach⟩
      · exact absurd hpath hm
      · refine ⟨member, hmember, hreach.tail ⟨hcontains, fun q hq => ?_⟩⟩
        rcases List.mem_cons.1 hq with rfl | hq
        · exact hm
        · exact houtside q hq

/-! ## Which types carry references -/

theorem reference_of_tracksWithin (h : decls.tracksWithin visiting ty = .ok true) :
    ∃ r, ReflTransGen decls.Contains ty r ∧ r.isReference = true := by
  fun_induction tracksWithin decls visiting ty with
  | case1 visiting ty hnone => exact ⟨ty, .refl, by simpa using h⟩
  | case2 => cases h
  | case3 => simp at h
  | case4 visiting ty path hpath aggregate hdecl hnew ih =>
    obtain ⟨member, hmember, htracks⟩ := (of_anyM_eq_ok h).1 rfl
    obtain ⟨r, hreach, hr⟩ := ih member htracks
    exact ⟨r, .head ⟨path, aggregate, hpath, hdecl, member, hmember, rfl⟩ hreach, hr⟩

/-- Where no reference is found, all that is contained was looked at. -/
theorem not_reference_of_tracksWithin (h : decls.tracksWithin visiting ty = .ok false) {r : Ty}
    (hreach : ReflTransGen (decls.ContainsOutside visiting) ty r) :
    r.isReference = false ∧ ∀ path, r.aggregate? = some path → path ∈ decls.aggregates := by
  have hfound : ∀ {ty : Ty} {path : Path} {aggregate : Aggregate}, ty.aggregate? = some path →
      decls.aggregates[path]? = some aggregate → ty.isReference = false ∧
        ∀ path, ty.aggregate? = some path → path ∈ decls.aggregates := by
    refine fun hpath hdecl => ⟨isReference_eq_false hpath, fun other hother => ?_⟩
    cases hpath.symm.trans hother
    exact Std.ExtTreeMap.mem_iff_isSome_getElem?.2 (by rw [hdecl]; rfl)
  fun_induction tracksWithin decls visiting ty with
  | case1 visiting ty hnone =>
    rcases ReflTransGen.cases_head hreach with rfl | ⟨m, hstep, _⟩
    · exact ⟨by simpa using h, by simp [hnone]⟩
    · obtain ⟨⟨path, _, hpath, _⟩, _⟩ := hstep
      rw [hnone] at hpath
      cases hpath
  | case2 => cases h
  | case3 visiting ty path hpath aggregate hdecl hvisited =>
    rcases ReflTransGen.cases_head hreach with rfl | ⟨m, hstep, _⟩
    · exact hfound hpath hdecl
    · exact absurd hpath (hstep.2 path hvisited)
  | case4 visiting ty path hpath aggregate hdecl hnew ih =>
    rcases outside_of_aggregate hpath hdecl hreach with rfl | ⟨member, hmember, hinner⟩
    · exact hfound hpath hdecl
    · exact ih member ((of_anyM_eq_ok h).2 rfl member hmember) hinner

theorem not_reference_of_tracked (h : decls.tracked ty = .ok false) {r : Ty}
    (hreach : ReflTransGen decls.Contains ty r) :
    r.isReference = false ∧ ∀ path, r.aggregate? = some path → path ∈ decls.aggregates := by
  have hall : ∀ a c, decls.Contains a c → decls.ContainsOutside [] a c :=
    fun a c hstep => ⟨hstep, by simp⟩
  exact not_reference_of_tracksWithin h (ReflTransGen.mono hall ty r hreach)

/-- A type carries references exactly if it contains a reference. -/
theorem tracked_iff {b : Bool} (h : decls.tracked ty = .ok b) :
    b = true ↔ ∃ r, ReflTransGen decls.Contains ty r ∧ r.isReference = true := by
  constructor
  · rintro rfl
    exact reference_of_tracksWithin h
  · rintro ⟨r, hreach, hr⟩
    cases b with
    | true => rfl
    | false =>
      rw [(not_reference_of_tracked h hreach).1] at hr
      cases hr

/-! ## Members -/

section Members

variable {base : Path} {members : List (Path × Ty)}

/-- Lists of members are made in two ways. A type that is not looked into has itself as its only
member; an aggregate is followed by what its members list, in order. -/
theorem membersWithin_induction {motive : List Path → Path → Ty → List (Path × Ty) → Prop}
    (whole : ∀ visiting base ty, (∀ path, ty.aggregate? = some path → path ∈ visiting) →
      motive visiting base ty [(base, ty)])
    (aggregate : ∀ visiting base ty path aggregate listing, ty.aggregate? = some path →
      decls.aggregates[path]? = some aggregate → path ∉ visiting →
      (∀ declarator ∈ aggregate.members,
        decls.membersWithin (path :: visiting) (base.child declarator.name) declarator.ty =
          .ok (listing declarator)) →
      (∀ declarator ∈ aggregate.members,
        motive (path :: visiting) (base.child declarator.name) declarator.ty
        (listing declarator)) →
      motive visiting base ty ((base, ty) :: aggregate.members.flatMap listing))
    (h : decls.membersWithin visiting base ty = .ok members) : motive visiting base ty members := by
  fun_induction membersWithin decls visiting base ty generalizing members with
  | case1 visiting base ty hnone =>
    cases h
    exact whole visiting base ty (by simp [hnone])
  | case2 => cases h
  | case3 visiting base ty path hpath found hdecl hvisited =>
    cases h
    exact whole visiting base ty (by simp [hpath, hvisited])
  | case4 visiting base ty path hpath found hdecl hnew ih =>
    obtain ⟨below, hbelow, h⟩ := except_bind_eq_ok h
    cases h
    obtain ⟨listing, hlisting, rfl⟩ := exists_map_of_mapM_ok hbelow
    rw [← List.flatMap_def]
    exact aggregate visiting base ty path found listing hpath hdecl hnew hlisting
        fun declarator hmember =>
      ih declarator (hlisting declarator hmember)

theorem head_of_membersWithin (h : decls.membersWithin visiting base ty = .ok members) :
    ∃ below, members = (base, ty) :: below := by
  refine membersWithin_induction
    (motive := fun _ base ty members => ∃ below, members = (base, ty) :: below) ?_ ?_ h
  · intro visiting base ty _
    exact ⟨[], rfl⟩
  · intro visiting base ty path aggregate listing _ _ _ _ _
    exact ⟨_, rfl⟩

/-- The names lead from the outer type to the inner one, each from an aggregate to a member of it.
None of these aggregates is among `visiting`, and none is there twice. -/
inductive Unfolds (decls : Declarations) : List Path → Ty → List String → Ty → Prop
  | whole {visiting : List Path} {ty : Ty} : Unfolds decls visiting ty [] ty
  | member {visiting : List Path} {ty inner : Ty} {path : Path} {aggregate : Aggregate}
      {declarator : Declarator} {names : List String} (hpath : ty.aggregate? = some path)
      (hdecl : decls.aggregates[path]? = some aggregate) (hnew : path ∉ visiting)
      (hmember : declarator ∈ aggregate.members)
      (hrest : Unfolds decls (path :: visiting) declarator.ty names inner) :
      Unfolds decls visiting ty (declarator.name :: names) inner

theorem Unfolds.contains {names : List String} (h : decls.Unfolds visiting ty names inner) :
    ReflTransGen decls.Contains ty inner := by
  induction h with
  | whole => exact .refl
  | member hpath hdecl _ hmember _ ih => exact .head ⟨_, _, hpath, hdecl, _, hmember, rfl⟩ ih

/-- The members of a type are what it unfolds to. -/
theorem mem_membersWithin_iff (h : decls.membersWithin visiting base ty = .ok members) :
    (path, inner) ∈ members ↔ ∃ names, path = base ++ ⟨names⟩ ∧
    decls.Unfolds visiting ty names inner := by
  refine membersWithin_induction (motive := fun visiting base ty members =>
    (path, inner) ∈ members ↔ ∃ names, path = base ++ ⟨names⟩ ∧
      decls.Unfolds visiting ty names inner)
    ?_ ?_ h
  · intro visiting base ty hvisited
    rw [List.mem_singleton, Prod.mk.injEq]
    constructor
    · rintro ⟨rfl, rfl⟩
      exact ⟨[], (Path.append_whole _).symm, .whole⟩
    · rintro ⟨names, rfl, hunfolds⟩
      cases hunfolds with
      | whole => exact ⟨Path.append_whole _, rfl⟩
      | member hpath _ hnew => exact absurd (hvisited _ hpath) hnew
  · intro visiting base ty outer aggregate listing houter hdecl hnew _ ih
    rw [List.mem_cons, List.mem_flatMap, Prod.mk.injEq]
    constructor
    · rintro (⟨rfl, rfl⟩ | ⟨declarator, hmember, hmem⟩)
      · exact ⟨[], (Path.append_whole _).symm, .whole⟩
      · obtain ⟨names, rfl, hrest⟩ := (ih declarator hmember).1 hmem
        exact ⟨declarator.name :: names, Path.child_append _ _ _,
          .member houter hdecl hnew hmember hrest⟩
    · rintro ⟨names, rfl, hunfolds⟩
      cases hunfolds with
      | whole => exact .inl ⟨Path.append_whole _, rfl⟩
      | @member _ _ _ _ _ declarator names houter' hdecl' _ hmember hrest =>
        cases houter.symm.trans houter'
        cases hdecl.symm.trans hdecl'
        exact .inr ⟨declarator, hmember,
          (ih declarator hmember).2 ⟨names, (Path.child_append _ _ _).symm, hrest⟩⟩

theorem contains_of_mem_members (h : decls.members ty = .ok members) {member : Path × Ty}
    (hmem : member ∈ members) : ReflTransGen decls.Contains ty member.2 := by
  rw [Declarations.members] at h
  split at h
  · cases h
    cases hmem
  · obtain ⟨names, -, hunfolds⟩ := (mem_membersWithin_iff h).1 hmem
    exact hunfolds.contains

theorem mem_members_of_member (h : decls.members ty = .ok members)
    (hpath : ty.aggregate? = some path) (hdecl : decls.aggregates[path]? = some aggregate)
    {declarator : Declarator} (hmem : declarator ∈ aggregate.members) :
    (Path.whole.child declarator.name, declarator.ty) ∈ members := by
  have hvoid : ty.isVoid = false := by
    cases ty <;> simp_all [Ty.aggregate?, Ty.isVoid]
  rw [Declarations.members, hvoid, if_neg Bool.false_ne_true] at h
  exact (mem_membersWithin_iff h).2
    ⟨[declarator.name], rfl, .member hpath hdecl List.not_mem_nil hmem .whole⟩

end Members

/-! ## Fields -/

variable {fields : List Field}

section

variable (h : decls.fields ty = .ok fields)

include h

/-- The fields of a type are its members, each with whether its type carries references. -/
theorem fields_eq :
    ∃ members, decls.members ty = .ok members ∧ List.Forall₂ (fun member field =>
      field.path = member.1 ∧ field.ty = member.2 ∧
        decls.tracked field.ty = .ok field.tracked) members fields := by
  obtain ⟨members, hmembers, h⟩ := except_bind_eq_ok h
  refine ⟨members, hmembers, (forall₂_of_mapM_ok h).imp fun member field hfield => ?_⟩
  obtain ⟨tracked, htracked, hfield⟩ := except_bind_eq_ok hfield
  cases hfield
  exact ⟨rfl, rfl, htracked⟩

theorem exists_tracked_of_fields : ∃ b, decls.tracked ty = .ok b := by
  obtain ⟨members, hmembers, hall⟩ := fields_eq h
  rw [Declarations.members] at hmembers
  split at hmembers
  · rename_i hvoid
    have hnone : ty.aggregate? = none := by
      cases ty <;> simp_all [Ty.aggregate?, Ty.isVoid]
    refine ⟨ty.isReference, ?_⟩
    rw [tracked, tracksWithin, hnone]
  · obtain ⟨below, rfl⟩ := head_of_membersWithin hmembers
    obtain ⟨field, -, -, hty, htracked⟩ := forall₂_mem_left hall List.mem_cons_self
    rw [hty] at htracked
    exact ⟨field.tracked, htracked⟩

/-- Every field that carries references is contained in a type that does. -/
theorem tracked_of_mem_fields {field : Field} (hmem : field ∈ fields)
    (htracked : field.tracked = true) {b : Bool} (hty : decls.tracked ty = .ok b) : b = true := by
  obtain ⟨members, hmembers, hall⟩ := fields_eq h
  obtain ⟨member, hmember, -, hfieldTy, hfield⟩ := forall₂_mem_right hall hmem
  obtain ⟨r, hreach, hr⟩ := (tracked_iff hfield).1 htracked
  have hcontains := contains_of_mem_members hmembers hmember
  rw [← hfieldTy] at hcontains
  exact (tracked_iff hty).2 ⟨r, hcontains.trans hreach, hr⟩

/-- An aggregate that carries references has a proper member that does. -/
theorem exists_tracked_member (hpath : ty.aggregate? = some path)
    (hty : decls.tracked ty = .ok true) :
    ∃ field ∈ fields, field.tracked = true ∧ ∃ name, field.path = .single name := by
  obtain ⟨r, hreach, hr⟩ := (tracked_iff hty).1 rfl
  rcases ReflTransGen.cases_head hreach with rfl | ⟨inner, hstep, hinner⟩
  · rw [isReference_eq_false hpath] at hr
    cases hr
  · obtain ⟨path', aggregate, hpath', hdecl, declarator, hdeclarator, rfl⟩ := hstep
    obtain ⟨members, hmembers, hall⟩ := fields_eq h
    have hmember := mem_members_of_member hmembers hpath' hdecl hdeclarator
    obtain ⟨field, hfield, hfieldPath, hfieldTy, hfieldTracked⟩ :=
      forall₂_mem_left hall hmember
    refine ⟨field, hfield, (tracked_iff hfieldTracked).2 ⟨r, ?_, hr⟩,
      declarator.name, hfieldPath⟩
    rw [hfieldTy]
    exact hinner

/-- A type that is no aggregate has no member but the whole value. -/
theorem path_of_mem_fields (hplain : ty.aggregate? = none) {field : Field}
    (hmem : field ∈ fields) : field.path = .whole := by
  obtain ⟨members, hmembers, hall⟩ := fields_eq h
  obtain ⟨member, hmember, hfieldPath, -⟩ := forall₂_mem_right hall hmem
  rw [hfieldPath]
  rw [Declarations.members, membersWithin, hplain] at hmembers
  split at hmembers
  · cases hmembers
    cases hmember
  · cases hmembers
    rw [List.mem_singleton.1 hmember]

end

end Declarations
end Regions
