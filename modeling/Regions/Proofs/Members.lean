import Mathlib.Data.List.Nodup
import Regions.Proofs.Containment

/-!
# Types along member paths

The type at a member path can be found in two ways: by looking up one member after the other, and in
the list of all members. On tidy declarations the two agree.

* `typeAlong?`: one member after the other;
* `opened`: the aggregates that are looked into on the way;
* `refersAt`: values of the type have a reference at the path;
* `Tidy`, `Declared`, `Layered`: aggregates are declared, their members have names of their own, and
  none contains itself, in a program or inside values of a type;
* `unfolds_iff`: types unfold along the paths that look into no aggregate twice;
* `typeAlong?_of_mem_members`, `exists_field_of_refersAt`: the two directions.
-/

namespace Regions
namespace Declarations

open Relation

variable {decls : Declarations} {ty inner : Ty} {name : String} {outer : Path} {names : List String}

/-- The type that is found by following member names. -/
def typeAlong? (decls : Declarations) : Ty → List String → Option Ty
  | ty, [] => some ty
  | ty, name :: rest =>
    match decls.memberType? ty name with
    | .ok (some inner) => decls.typeAlong? inner rest
    | _ => none

/-- The aggregates that are looked into when member names are followed. -/
def opened (decls : Declarations) : Ty → List String → List Path
  | _, [] => []
  | ty, name :: rest =>
    match decls.memberType? ty name with
    | .ok (some inner) => ty.aggregate?.toList ++ decls.opened inner rest
    | _ => []

/-- Whether values of the type have a reference at the path. -/
def refersAt (decls : Declarations) (ty : Ty) (path : Path) : Bool :=
  (decls.typeAlong? ty path.segments).any Ty.isReference

/-- The aggregate `outer` has a member of the aggregate type `inner`. -/
def Encloses (decls : Declarations) (outer inner : Path) : Prop :=
  ∃ aggregate, decls.aggregates[outer]? = some aggregate ∧
    ∃ member ∈ aggregate.members, member.ty.aggregate? = some inner

/-- All aggregates are structs whose members have names of their own, and none of them contains
itself. -/
structure Tidy (decls : Declarations) : Prop where
  structs : ∀ (path : Path) aggregate, decls.aggregates[path]? = some aggregate →
    aggregate.layout = .struct
  distinct : ∀ (path : Path) aggregate, decls.aggregates[path]? = some aggregate →
    (aggregate.members.map Declarator.name).Nodup
  acyclic : ∀ path, ¬ TransGen decls.Encloses path path

/-- The aggregates inside values of the type are declared. -/
def Declared (decls : Declarations) (ty : Ty) : Prop :=
  ∀ outer path, ty.aggregate? = some outer → ReflTransGen decls.Encloses outer path →
    path ∈ decls.aggregates

/-- The aggregates inside values of the type have members with names of their own. -/
def Distinct (decls : Declarations) (ty : Ty) : Prop :=
  ∀ outer (path : Path) aggregate, ty.aggregate? = some outer →
    ReflTransGen decls.Encloses outer path → decls.aggregates[path]? = some aggregate →
    (aggregate.members.map Declarator.name).Nodup

/-- The aggregates inside values of the type have members with names of their own, and none of them
contains itself. -/
structure Layered (decls : Declarations) (ty : Ty) : Prop where
  distinct : decls.Distinct ty
  acyclic : ∀ outer path, ty.aggregate? = some outer →
    ReflTransGen decls.Encloses outer path → ¬ TransGen decls.Encloses path path

theorem Tidy.layered (h : decls.Tidy) (ty : Ty) : decls.Layered ty :=
  ⟨fun _ path aggregate _ _ hdecl => h.distinct path aggregate hdecl,
    fun _ path _ _ => h.acyclic path⟩

theorem Declared.aggregate (h : decls.Declared ty) (houter : ty.aggregate? = some outer) :
    ∃ aggregate, decls.aggregates[outer]? = some aggregate :=
  Option.isSome_iff_exists.1 (Std.ExtTreeMap.isSome_getElem?_iff_mem.2 (h outer outer houter .refl))

section

variable {aggregate : Aggregate} {entry : Declarator} (houter : ty.aggregate? = some outer)
  (hdecl : decls.aggregates[outer]? = some aggregate) (hmember : entry ∈ aggregate.members)

include houter hdecl hmember

theorem Declared.member (h : decls.Declared ty) : decls.Declared entry.ty :=
  fun _ path hnext hreach =>
    h outer path houter (.head ⟨aggregate, hdecl, entry, hmember, hnext⟩ hreach)

theorem Distinct.member (h : decls.Distinct ty) : decls.Distinct entry.ty :=
  fun _ path inner hnext hreach => h outer path inner houter
    (.head ⟨aggregate, hdecl, entry, hmember, hnext⟩ hreach)

theorem Layered.member (h : decls.Layered ty) : decls.Layered entry.ty :=
  ⟨h.distinct.member houter hdecl hmember, fun _ path hnext hreach => h.acyclic outer path houter
    (.head ⟨aggregate, hdecl, entry, hmember, hnext⟩ hreach)⟩

end

/-! ## One member after the other -/

theorem typeAlong?_append (decls : Declarations) (ty : Ty) (names rest : List String) :
    decls.typeAlong? ty (names ++ rest) =
      (decls.typeAlong? ty names).bind fun inner => decls.typeAlong? inner rest := by
  induction names generalizing ty with
  | nil => rfl
  | cons name names ih =>
    simp only [List.cons_append, typeAlong?]
    split
    · exact ih _
    · rfl

theorem memberType?_eq_some_iff : decls.memberType? ty name = .ok (some inner) ↔
      ∃ path aggregate member, ty.aggregate? = some path ∧
      decls.aggregates[path]? = some aggregate ∧
        aggregate.members.find? (fun member => member.name = name) = some member ∧
        member.ty = inner := by
  unfold memberType? aggregateOf?
  cases hpath : ty.aggregate? with
  | none => simp [bind, Except.bind, pure, Except.pure]
  | some path =>
    cases hdecl : decls.aggregates[path]? with
    | none => simp [hdecl, bind, Except.bind]
    | some aggregate => simp [hdecl, bind, Except.bind, pure, Except.pure]

theorem contains_of_memberType? (h : decls.memberType? ty name = .ok (some inner)) :
    decls.Contains ty inner := by
  obtain ⟨path, aggregate, member, hpath, hdecl, hfind, hty⟩ := memberType?_eq_some_iff.1 h
  exact ⟨path, aggregate, hpath, hdecl, member, List.mem_of_find?_eq_some hfind, hty⟩

/-- Where a path can be followed, its first name is that of a member. -/
theorem exists_of_typeAlong?_cons (h : decls.typeAlong? ty (name :: names) = some inner) :
    ∃ outer aggregate member, ty.aggregate? = some outer ∧
    decls.aggregates[outer]? = some aggregate ∧
      member ∈ aggregate.members ∧ member.name = name ∧ decls.memberType? ty name = .ok
      (some member.ty) ∧ decls.typeAlong? member.ty names = some inner := by
  rw [typeAlong?] at h
  split at h
  · rename_i next hnext
    obtain ⟨outer, aggregate, member, houter, hdecl, hfind, rfl⟩ :=
      memberType?_eq_some_iff.1 hnext
    exact ⟨outer, aggregate, member, houter, hdecl, List.mem_of_find?_eq_some hfind,
      by simpa using List.find?_some hfind, hnext, h⟩
  · cases h

theorem contains_of_typeAlong? (h : decls.typeAlong? ty names = some inner) :
    ReflTransGen decls.Contains ty inner := by
  induction names generalizing ty with
  | nil =>
    cases h
    exact .refl
  | cons name names ih =>
    obtain ⟨_, _, _, -, -, -, -, hnext, h⟩ := exists_of_typeAlong?_cons h
    exact .head (contains_of_memberType? hnext) (ih h)

theorem refersAt_eq_true_iff {path : Path} : decls.refersAt ty path = true ↔
      ∃ inner, decls.typeAlong? ty path.segments = some inner ∧ inner.isReference = true := by
  simp [refersAt, Option.any_eq_true]

/-- A type with a reference somewhere inside carries references. -/
theorem tracked_of_refersAt {path : Path} (h : decls.refersAt ty path = true) {b : Bool}
    (hty : decls.tracked ty = .ok b) : b = true := by
  obtain ⟨inner, halong, hinner⟩ := refersAt_eq_true_iff.1 h
  exact (tracked_iff hty).2 ⟨inner, contains_of_typeAlong? halong, hinner⟩

theorem refersAt_void (path : Path) : decls.refersAt .void path = false := by
  obtain ⟨_ | ⟨name, rest⟩⟩ := path
  · rfl
  · rfl

/-- A name belongs to one member only, so that looking it up finds the member. -/
theorem Distinct.memberType? (h : decls.Distinct ty) {aggregate : Aggregate}
    (houter : ty.aggregate? = some outer) (hdecl : decls.aggregates[outer]? = some aggregate)
    {member : Declarator} (hmember : member ∈ aggregate.members) :
    decls.memberType? ty member.name = .ok (some member.ty) := by
  obtain ⟨found, hfound⟩ : ∃ found,
      aggregate.members.find? (fun other => other.name = member.name) = some found := by
    rw [← Option.isSome_iff_exists, List.find?_isSome]
    exact ⟨member, hmember, by simp⟩
  have hname : found.name = member.name := by simpa using List.find?_some hfound
  have hsame := List.inj_on_of_nodup_map (h outer outer aggregate houter .refl hdecl)
    (List.mem_of_find?_eq_some hfound) hmember hname
  exact memberType?_eq_some_iff.2
    ⟨outer, aggregate, found, houter, hdecl, hfound, hsame ▸ rfl⟩

/-! ## The list of members -/

variable {visiting : List Path} {members : List (Path × Ty)}

/-- Types unfold along the paths that can be followed without looking into an aggregate twice. -/
theorem unfolds_iff (h : decls.Distinct ty) :
    decls.Unfolds visiting ty names inner ↔ decls.typeAlong? ty names = some inner ∧
      (decls.opened ty names).Nodup ∧ ∀ path ∈ decls.opened ty names, path ∉ visiting := by
  constructor
  · intro hunfolds
    induction hunfolds with
    | whole => exact ⟨rfl, List.nodup_nil, by simp [opened]⟩
    | @member visiting ty inner outer aggregate declarator names houter hdecl hnew hmember _ ih =>
      obtain ⟨halong, hnodup, hvisiting⟩ := ih (h.member houter hdecl hmember)
      have hopened : decls.opened ty (declarator.name :: names) =
          outer :: decls.opened declarator.ty names := by
        rw [opened, h.memberType? houter hdecl hmember, houter]
        rfl
      rw [typeAlong?, h.memberType? houter hdecl hmember, hopened]
      refine ⟨halong, List.nodup_cons.2 ⟨fun hagain => ?_, hnodup⟩, fun path hpath => ?_⟩
      · exact hvisiting outer hagain List.mem_cons_self
      · rcases List.mem_cons.1 hpath with rfl | hpath
        · exact hnew
        · exact fun hold => hvisiting path hpath (List.mem_cons_of_mem _ hold)
  · rintro ⟨halong, hnodup, hvisiting⟩
    induction names generalizing visiting ty with
    | nil =>
      cases halong
      exact .whole
    | cons name names ih =>
      obtain ⟨outer, aggregate, member, houter, hdecl, hmember, rfl, hnext, halong⟩ :=
        exists_of_typeAlong?_cons halong
      rw [opened, hnext, houter] at hnodup hvisiting
      obtain ⟨hfresh, hnodup⟩ := List.nodup_cons.1 hnodup
      refine .member houter hdecl (hvisiting outer List.mem_cons_self) hmember
        (ih (h.member houter hdecl hmember) halong hnodup fun path hpath hold => ?_)
      rcases List.mem_cons.1 hold with rfl | hold
      · exact hfresh hpath
      · exact hvisiting path (List.mem_cons_of_mem _ hpath) hold

/-- A path can be followed to its end if no aggregate on the way contains itself, and none contains
one of `visiting`. -/
theorem Layered.unfolds (h : decls.Layered ty)
    (hvisiting : ∀ outer, ty.aggregate? = some outer → ∀ path ∈ visiting,
      ¬ ReflTransGen decls.Encloses outer path) (halong : decls.typeAlong? ty names = some inner) :
    decls.Unfolds visiting ty names inner := by
  induction names generalizing visiting ty with
  | nil =>
    cases halong
    exact .whole
  | cons name names ih =>
    obtain ⟨outer, aggregate, member, houter, hdecl, hmember, rfl, -, halong⟩ :=
      exists_of_typeAlong?_cons halong
    have hnew : outer ∉ visiting := fun hold => hvisiting outer houter outer hold .refl
    refine .member houter hdecl hnew hmember (ih (h.member houter hdecl hmember) ?_ halong)
    intro next hnext path hpath hreach
    have hstep : decls.Encloses outer next := ⟨aggregate, hdecl, member, hmember, hnext⟩
    rcases List.mem_cons.1 hpath with rfl | hpath
    · exact h.acyclic path path houter .refl (TransGen.head' hstep hreach)
    · exact hvisiting outer houter path hpath (.head hstep hreach)

/-- Every listed member is found by following its path. -/
theorem typeAlong?_of_mem_members (hdistinct : decls.Distinct ty)
    (h : decls.members ty = .ok members) {path : Path} (hmem : (path, inner) ∈ members) :
    decls.typeAlong? ty path.segments = some inner := by
  rw [Declarations.members] at h
  split at h
  · cases h
    cases hmem
  · obtain ⟨names, rfl, hunfolds⟩ := (mem_membersWithin_iff h).1 hmem
    exact ((unfolds_iff hdistinct).1 hunfolds).1

/-! ## Fields -/

variable {fields : List Field} {path : Path}

/-- A reference inside values of a type is a field that carries references. -/
theorem exists_field_of_refersAt (htidy : decls.Tidy) (h : decls.fields ty = .ok fields)
    (href : decls.refersAt ty path = true) :
    ∃ field ∈ fields, field.path = path ∧ field.tracked = true := by
  obtain ⟨inner, halong, hinner⟩ := refersAt_eq_true_iff.1 href
  obtain ⟨members, hmembers, hall⟩ := fields_eq h
  have hvoid : ty.isVoid = false := by
    cases hty : ty with
    | void => simp [hty, refersAt_void] at href
    | _ => rfl
  rw [Declarations.members, hvoid, if_neg Bool.false_ne_true] at hmembers
  have hmem :=
    (mem_membersWithin_iff hmembers).2 ⟨_, rfl, (htidy.layered ty).unfolds (by simp) halong⟩
  obtain ⟨field, hfield, hpath, hty, htracked⟩ := forall₂_mem_left hall hmem
  refine ⟨field, hfield, hpath, (tracked_iff htracked).2 ⟨inner, ?_, hinner⟩⟩
  rw [hty]

theorem field_eq_of_path_eq (htidy : decls.Tidy) (h : decls.fields ty = .ok fields)
    {field other : Field} (hfield : field ∈ fields) (hother : other ∈ fields)
    (hpath : field.path = other.path) : field = other := by
  obtain ⟨members, hmembers, hall⟩ := fields_eq h
  obtain ⟨⟨p, t⟩, hmember, hp, ht, htracked⟩ := forall₂_mem_right hall hfield
  obtain ⟨⟨p', t'⟩, hmember', hp', ht', htracked'⟩ := forall₂_mem_right hall hother
  have hsame : p = p' := hp.symm.trans (hpath.trans hp')
  have halong := typeAlong?_of_mem_members (htidy.layered ty).distinct hmembers hmember
  have halong' := typeAlong?_of_mem_members (htidy.layered ty).distinct hmembers hmember'
  rw [hsame, halong'] at halong
  have hty : field.ty = other.ty := ht.trans ((Option.some.inj halong).symm.trans ht'.symm)
  rw [hty] at htracked
  have hflag : field.tracked = other.tracked := Except.ok.inj (htracked.symm.trans htracked')
  cases field
  cases other
  simp_all

theorem refersAt_of_untracked (htidy : decls.Tidy) (h : decls.fields ty = .ok fields)
    {field : Field} (hfield : field ∈ fields) (huntracked : field.tracked = false) :
    decls.refersAt ty field.path = false := by
  cases href : decls.refersAt ty field.path with
  | false => rfl
  | true =>
    obtain ⟨other, hother, hpath, htracked⟩ := exists_field_of_refersAt htidy h href
    rw [field_eq_of_path_eq htidy h hother hfield hpath, huntracked] at htracked
    cases htracked

end Declarations
end Regions
