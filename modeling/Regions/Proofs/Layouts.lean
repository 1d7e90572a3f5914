import Mathlib.Data.List.Perm.Basic
import Regions.Proofs.Members

/-!
# Types with a layout

A type with a layout has finitely many members, each at a path of its own. A bundle is complete for
such a type if it has an extent for each member and for nothing else.

* `Regular`, `Proper`: aggregates that have a layout, and types that only contain such ones;
* `proper_of_ranked`: a decidable condition for that;
* `mem_members_iff`: the members are what can be found by following names;
* `nodup_members`: no two members have the same path;
* `Bundle.Complete`: a bundle for all members of a type;
* `Bundle.Complete.scopedTo`, `Bundle.Complete.size_eq`: the bundle of a member is complete too.
-/

namespace Regions

open Std Relation

variable {name : String} {fields : List Field} {members : List (Path × Ty)}

namespace Declarations

variable {decls : Declarations} {ty inner : Ty} {visiting : List Path} {base path : Path}

/-- The aggregate is declared, its members have values and names of their own, and it does not
contain itself. -/
def Regular (decls : Declarations) (path : Path) : Prop :=
  ∃ aggregate, decls.aggregates[path]? = some aggregate ∧
    (aggregate.members.map Declarator.name).Nodup ∧
    (∀ member ∈ aggregate.members, member.ty.isVoid = false) ∧
    ¬ TransGen decls.Encloses path path

/-- All aggregates inside values of the type are regular. -/
def Proper (decls : Declarations) (ty : Ty) : Prop :=
  ∀ outer, ty.aggregate? = some outer →
    ∀ path, ReflTransGen decls.Encloses outer path → decls.Regular path

theorem Proper.regular (h : decls.Proper ty) (hpath : ty.aggregate? = some path) :
    decls.Regular path :=
  h path hpath path .refl

theorem Proper.declared (h : decls.Proper ty) : decls.Declared ty := by
  intro outer path houter hreach
  obtain ⟨aggregate, hfound, -⟩ := h outer houter path hreach
  exact ExtTreeMap.isSome_getElem?_iff_mem.1 (Option.isSome_iff_exists.2 ⟨aggregate, hfound⟩)

theorem Proper.layered (h : decls.Proper ty) : decls.Layered ty where
  distinct := by
    intro outer path aggregate houter hreach hdecl
    obtain ⟨found, hfound, hnodup, -⟩ := h outer houter path hreach
    cases hdecl.symm.trans hfound
    exact hnodup
  acyclic := by
    intro outer path houter hreach
    obtain ⟨-, -, -, -, hacyclic⟩ := h outer houter path hreach
    exact hacyclic

theorem Proper.member (h : decls.Proper ty) {outer : Path} {aggregate : Aggregate}
    (houter : ty.aggregate? = some outer) (hdecl : decls.aggregates[outer]? = some aggregate)
    {member : Declarator} (hmember : member ∈ aggregate.members) : decls.Proper member.ty :=
  fun _ hnext path hreach =>
    h outer houter path (.head ⟨aggregate, hdecl, member, hmember, hnext⟩ hreach)

/-- A member of a proper type is a value of a proper type. -/
theorem Proper.memberType? (h : decls.Proper ty)
    (hmember : decls.memberType? ty name = .ok (some inner)) :
    decls.Proper inner ∧ inner.isVoid = false := by
  obtain ⟨outer, aggregate, member, houter, hdecl, hfind, rfl⟩ :=
    memberType?_eq_some_iff.1 hmember
  have hmem := List.mem_of_find?_eq_some hfind
  obtain ⟨found, hfound, -, hvalues, -⟩ := h.regular houter
  cases hdecl.symm.trans hfound
  exact ⟨h.member houter hdecl hmem, hvalues member hmem⟩

/-! ## Aggregates that are ranked -/

instance decidableForallAggregates {P : Path → Aggregate → Prop}
    [∀ path aggregate, Decidable (P path aggregate)] : Decidable
    (∀ (path : Path) (aggregate : Aggregate), decls.aggregates[path]? = some aggregate →
      P path aggregate) :=
  decidable_of_iff (∀ entry ∈ decls.aggregates.toList, P entry.1 entry.2)
    (by simp [ExtTreeMap.mem_toList_iff_getElem?_eq_some])

/-- The members of all aggregates have names of their own, and the aggregates that they are, if any,
are declared. -/
def Closed (decls : Declarations) : Prop :=
  ∀ (path : Path) (aggregate : Aggregate), decls.aggregates[path]? = some aggregate →
    (aggregate.members.map Declarator.name).Nodup ∧ ∀ member ∈ aggregate.members, ∀ inner,
      member.ty.aggregate? = some inner → inner ∈ decls.aggregates

instance : Decidable decls.Closed := decidableForallAggregates

theorem declared_of_closed (h : decls.Closed)
    (hty : ∀ path, ty.aggregate? = some path → path ∈ decls.aggregates) :
    decls.Declared ty ∧ decls.Distinct ty := by
  refine ⟨fun outer path houter hreach => ?_, fun _ path aggregate _ _ hfound =>
    (h path aggregate hfound).1⟩
  induction hreach with
  | refl => exact hty outer houter
  | tail _ hlast _ =>
    obtain ⟨aggregate, hfound, member, hmember, hinner⟩ := hlast
    exact (h _ aggregate hfound).2 member hmember _ hinner

/-- Moreover, the members have values, and the aggregates that they are have a lower rank. -/
structure Ranked (decls : Declarations) (rank : Path → Nat) : Prop where
  closed : decls.Closed
  lower : ∀ (path : Path) (aggregate : Aggregate), decls.aggregates[path]? = some aggregate →
    ∀ member ∈ aggregate.members, member.ty.isVoid = false ∧ ∀ inner,
      member.ty.aggregate? = some inner → rank inner < rank path

section Ranked

variable {rank : Path → Nat}

instance : Decidable (decls.Ranked rank) :=
  haveI := @decidableForallAggregates
  decidable_of_iff (_ ∧ _) ⟨fun h => ⟨h.1, h.2⟩, fun h => ⟨h.closed, h.lower⟩⟩

/-- The rank falls from each aggregate to those inside it. -/
theorem Ranked.acyclic (h : decls.Ranked rank) : ¬ TransGen decls.Encloses path path := by
  have hlower : ∀ inner, TransGen decls.Encloses path inner → rank inner < rank path := by
    have hstep : ∀ {outer inner}, decls.Encloses outer inner → rank inner < rank outer := by
      rintro outer inner ⟨aggregate, hfound, member, hmember, hinner⟩
      exact (h.lower outer aggregate hfound member hmember).2 inner hinner
    intro inner hinner
    induction hinner with
    | single hlast => exact hstep hlast
    | tail _ hlast ih => exact Nat.lt_trans (hstep hlast) ih
  exact fun hcycle => Nat.lt_irrefl _ (hlower path hcycle)

theorem proper_of_ranked (h : decls.Ranked rank)
    (hty : ∀ path, ty.aggregate? = some path → path ∈ decls.aggregates) :
    decls.Proper ty := by
  intro outer houter path hreach
  have hdeclared := (declared_of_closed h.closed hty).1 outer path houter hreach
  obtain ⟨aggregate, hfound⟩ :=
    Option.isSome_iff_exists.1 (ExtTreeMap.isSome_getElem?_iff_mem.2 hdeclared)
  exact ⟨aggregate, hfound, (h.closed path aggregate hfound).1,
    fun member hmember => (h.lower path aggregate hfound member hmember).1, h.acyclic⟩

theorem tidy_of_ranked (h : decls.Ranked rank)
    (hstructs : ∀ (path : Path) (aggregate : Aggregate),
    decls.aggregates[path]? = some aggregate → aggregate.layout = .struct) : decls.Tidy :=
  ⟨hstructs, fun path aggregate hfound => (h.closed path aggregate hfound).1,
    fun _ => h.acyclic⟩

end Ranked

/-! ## The walks over members find an end -/

theorem Declared.exists_membersWithin (h : decls.Declared ty) (visiting : List Path) (base : Path) :
    ∃ members, decls.membersWithin visiting base ty = .ok members := by
  fun_induction membersWithin decls visiting base ty with
  | case1 => exact ⟨_, rfl⟩
  | case2 visiting base ty path hpath hnone =>
    obtain ⟨aggregate, hdecl⟩ := h.aggregate hpath
    rw [hnone] at hdecl
    cases hdecl
  | case3 => exact ⟨_, rfl⟩
  | case4 visiting base ty path hpath aggregate hdecl hnew ih =>
    obtain ⟨below, hbelow⟩ := mapM_ok_of_forall fun member hmember =>
      ih member (h.member hpath hdecl hmember)
    exact ⟨_, by rw [hbelow]; rfl⟩

theorem Declared.exists_members (h : decls.Declared ty) :
    ∃ members, decls.members ty = .ok members := by
  unfold Declarations.members
  split
  · exact ⟨[], rfl⟩
  · exact h.exists_membersWithin [] .whole

theorem Declared.exists_tracked (h : decls.Declared ty) : ∃ b, decls.tracked ty = .ok b := by
  unfold tracked
  generalize ([] : List Path) = visiting
  fun_induction tracksWithin decls visiting ty with
  | case1 => exact ⟨_, rfl⟩
  | case2 visiting ty path hpath hnone =>
    obtain ⟨aggregate, hdecl⟩ := h.aggregate hpath
    rw [hnone] at hdecl
    cases hdecl
  | case3 => exact ⟨_, rfl⟩
  | case4 visiting ty path hpath aggregate hdecl hnew ih =>
    exact anyM_ok_of_forall fun member hmember => ih member (h.member hpath hdecl hmember)

theorem Proper.exists_members (h : decls.Proper ty) : ∃ members, decls.members ty = .ok members :=
  h.declared.exists_members

theorem Proper.exists_tracked (h : decls.Proper ty) : ∃ b, decls.tracked ty = .ok b :=
  h.declared.exists_tracked

/-- The aggregates inside a contained type are inside the type. -/
theorem encloses_of_contains (hreach : ReflTransGen decls.Contains ty inner) {next : Path}
    (hinner : inner.aggregate? = some next) :
    ∃ outer, ty.aggregate? = some outer ∧ ReflTransGen decls.Encloses outer next := by
  induction hreach generalizing next with
  | refl => exact ⟨next, hinner, .refl⟩
  | tail _ hstep ih =>
    obtain ⟨above, aggregate, habove, hdecl, member, hmember, rfl⟩ := hstep
    obtain ⟨outer, houter, hencloses⟩ := ih habove
    exact ⟨outer, houter, hencloses.tail ⟨aggregate, hdecl, member, hmember, hinner⟩⟩

theorem Declared.of_contains (h : decls.Declared ty)
    (hreach : ReflTransGen decls.Contains ty inner) : decls.Declared inner := by
  intro next path hnext hbelow
  obtain ⟨outer, houter, hencloses⟩ := encloses_of_contains hreach hnext
  exact h outer path houter (hencloses.trans hbelow)

/-- What is inside values without references carries none. -/
theorem tracked_eq_false_of_contains (h : decls.tracked ty = .ok false)
    (hreach : ReflTransGen decls.Contains ty inner) : decls.tracked inner = .ok false := by
  have hdeclared : decls.Declared inner := by
    intro outer path houter hbelow
    -- The aggregates below are those of contained types.
    have hcontained : ∃ r, ReflTransGen decls.Contains ty r ∧ r.aggregate? = some path := by
      induction hbelow with
      | refl => exact ⟨inner, hreach, houter⟩
      | tail _ hstep ih =>
        obtain ⟨r, hr, hpath⟩ := ih
        obtain ⟨aggregate, hdecl, member, hmember, hinner⟩ := hstep
        exact ⟨member.ty,
          hr.tail ⟨_, aggregate, hpath, hdecl, member, hmember, rfl⟩, hinner⟩
    obtain ⟨r, hr, hpath⟩ := hcontained
    exact (not_reference_of_tracked h hr).2 path hpath
  obtain ⟨b, hb⟩ := hdeclared.exists_tracked
  cases b with
  | false => exact hb
  | true =>
    obtain ⟨r, hr, hreference⟩ := (tracked_iff hb).1 rfl
    rw [(not_reference_of_tracked h (hreach.trans hr)).1] at hreference
    cases hreference

theorem Proper.of_contains (h : decls.Proper ty) (hreach : ReflTransGen decls.Contains ty inner) :
    decls.Proper inner := by
  intro next hnext path hbelow
  obtain ⟨outer, houter, hencloses⟩ := encloses_of_contains hreach hnext
  exact h outer houter path (hencloses.trans hbelow)

theorem Proper.exists_fields (h : decls.Proper ty) : ∃ fields, decls.fields ty = .ok fields := by
  obtain ⟨members, hmembers⟩ := h.exists_members
  have hall : ∃ fields, members.mapM (fun (member : Path × Ty) => do
      return ({ path := member.1, ty := member.2, tracked := ← decls.tracked member.2 } : Field))
        = .ok fields := by
    refine mapM_ok_of_forall fun member hmember => ?_
    have hdeclared := h.declared.of_contains (contains_of_mem_members hmembers hmember)
    obtain ⟨tracked, htracked⟩ := hdeclared.exists_tracked
    exact ⟨_, by rw [htracked]; rfl⟩
  obtain ⟨fields, hfields⟩ := hall
  refine ⟨fields, ?_⟩
  unfold Declarations.fields
  rw [hmembers]
  exact hfields

/-! ## The paths of members -/

/-- The members are what can be found by following names. -/
theorem mem_members_iff (h : decls.Proper ty) (hmembers : decls.members ty = .ok members) :
    path ∈ members.map Prod.fst ↔
      ty.isVoid = false ∧ (decls.typeAlong? ty path.segments).isSome = true := by
  constructor
  · intro hpath
    obtain ⟨⟨_, inner⟩, hmem, rfl⟩ := List.mem_map.1 hpath
    refine ⟨?_, by rw [typeAlong?_of_mem_members h.layered.distinct hmembers hmem]; rfl⟩
    rw [Declarations.members] at hmembers
    split at hmembers
    · cases hmembers
      cases hmem
    · rename_i hvoid
      simpa using hvoid
  · rintro ⟨hvoid, halong⟩
    obtain ⟨inner, halong⟩ := Option.isSome_iff_exists.1 halong
    rw [Declarations.members, hvoid, if_neg Bool.false_ne_true] at hmembers
    exact List.mem_map_of_mem
      ((mem_membersWithin_iff hmembers).2 ⟨_, rfl, h.layered.unfolds (by simp) halong⟩)

theorem base_of_mem_membersWithin (h : decls.membersWithin visiting base ty = .ok members)
    {member : Path × Ty} (hmem : member ∈ members) : ∃ rest, member.1 = base ++ rest := by
  obtain ⟨names, hpath, -⟩ := (mem_membersWithin_iff h).1 hmem
  exact ⟨⟨names⟩, hpath⟩

theorem nodup_membersWithin (hdistinct : decls.Distinct ty)
    (h : decls.membersWithin visiting base ty = .ok members) : (members.map Prod.fst).Nodup := by
  refine membersWithin_induction (motive := fun _ _ ty members =>
    decls.Distinct ty → (members.map Prod.fst).Nodup) ?_ ?_ h hdistinct
  · simp
  · intro visiting base ty outer aggregate listing houter hdecl _ hlisting ih hdistinct
    have hbase : ∀ declarator ∈ aggregate.members,
      ∀ path ∈ (listing declarator).map Prod.fst,
        ∃ rest, path = base.child declarator.name ++ rest := by
      intro declarator hmember path hpath
      obtain ⟨entry, hentry, rfl⟩ := List.mem_map.1 hpath
      exact base_of_mem_membersWithin (hlisting declarator hmember) hentry
    rw [List.map_cons, List.map_flatMap, List.nodup_cons, List.nodup_flatMap]
    refine ⟨fun hmem => ?_, fun declarator hmember =>
      ih declarator hmember (hdistinct.member houter hdecl hmember),
      (List.pairwise_map.1 (hdistinct outer outer aggregate houter .refl hdecl)).imp_of_mem ?_⟩
    · obtain ⟨declarator, hmember, hpath⟩ := List.mem_flatMap.1 hmem
      obtain ⟨rest, hrest⟩ := hbase declarator hmember _ hpath
      have hlength := congrArg (fun p => p.segments.length) hrest
      simp [Path.child] at hlength
    · -- Two paths below one base begin with the same name.
      intro declarator other hmember hother hne path hpath hpath'
      obtain ⟨rest, rfl⟩ := hbase declarator hmember path hpath
      obtain ⟨rest', heq⟩ := hbase other hother _ hpath'
      exact hne (Path.eq_of_child_append_eq heq)

theorem nodup_members (h : decls.Distinct ty) (hmembers : decls.members ty = .ok members) :
    (members.map Prod.fst).Nodup := by
  rw [Declarations.members] at hmembers
  split at hmembers
  · cases hmembers
    exact .nil
  · exact nodup_membersWithin h hmembers

theorem map_path_of_fields (h : decls.fields ty = .ok fields) :
    ∃ members, decls.members ty = .ok members ∧
    fields.map Field.path = members.map Prod.fst := by
  obtain ⟨members, hmembers, hall⟩ := fields_eq h
  refine ⟨members, hmembers, ?_⟩
  clear h hmembers
  induction hall with
  | nil => rfl
  | cons hhead _ ih => rw [List.map_cons, List.map_cons, hhead.1, ih]

/-- The members of a member are the members below its name. -/
theorem single_append_mem_members_iff {inner : Ty} (hproper : decls.Proper ty)
    (hmember : decls.memberType? ty name = .ok (some inner)) {innerMembers : List (Path × Ty)}
    (hmembers : decls.members ty = .ok members)
    (hinnerMembers : decls.members inner = .ok innerMembers) {path : Path} :
    Path.single name ++ path ∈ members.map Prod.fst ↔ path ∈ innerMembers.map Prod.fst := by
  obtain ⟨hinner, hvoid⟩ := hproper.memberType? hmember
  have houter : ty.isVoid = false := by
    cases ty <;> first | rfl | (cases hmember)
  have hstep : decls.typeAlong? ty (Path.single name ++ path).segments =
      decls.typeAlong? inner path.segments := by
    change decls.typeAlong? ty (name :: path.segments) = _
    rw [typeAlong?, hmember]
  calc
    Path.single name ++ path ∈ members.map Prod.fst
        ↔ (decls.typeAlong? inner path.segments).isSome = true := by
          rw [mem_members_iff hproper hmembers, hstep, houter]
          simp
    _ ↔ path ∈ innerMembers.map Prod.fst := by
          rw [mem_members_iff hinner hinnerMembers, hvoid]
          simp

end Declarations

/-! ## Complete bundles -/

namespace Bundle

variable {decls : Declarations} {ty inner : Ty} {bundle : Bundle} {entries : List (Path × Extent)}

/-- The bundle has an extent for each member of the type, and for nothing else. -/
def Complete (decls : Declarations) (bundle : Bundle) (ty : Ty) : Prop :=
  ∃ members, decls.members ty = .ok members ∧ ∀ path, path ∈ bundle ↔
    path ∈ members.map Prod.fst

theorem complete_ofList (hmembers : decls.members ty = .ok members)
    (hpaths : entries.map Prod.fst = members.map Prod.fst) :
    Complete decls (.ofList entries compare) ty := by
  refine ⟨members, hmembers, fun path => ?_⟩
  rw [ExtTreeMap.mem_ofList, ← hpaths, List.contains_iff_mem]

theorem complete_of_fields (hfields : decls.fields ty = .ok fields)
    (hpaths : entries.map Prod.fst = fields.map Field.path) :
    Complete decls (.ofList entries compare) ty := by
  obtain ⟨members, hmembers, heq⟩ := Declarations.map_path_of_fields hfields
  exact complete_ofList hmembers (hpaths.trans heq)

theorem complete_empty : Complete decls ∅ .void := ⟨[], rfl, fun path => by simp⟩

/-- A reference has no members but itself. -/
theorem complete_reference {extent : Extent} (hreference : ty.isReference = true) :
    Complete decls (.ofList [(.whole, extent)] compare) ty := by
  have hmembers : decls.members ty = .ok [(.whole, ty)] := by
    cases ty with
    | pointer target | array element =>
      rw [Declarations.members, if_neg (by simp [Ty.isVoid]), Declarations.membersWithin]
      rfl
    | _ => cases hreference
  exact complete_ofList hmembers rfl

theorem Complete.whole? (h : Complete decls bundle ty) (hvoid : ty.isVoid = false) :
    ∃ extent, bundle.whole? = some extent := by
  obtain ⟨members, hmembers, hpaths⟩ := h
  rw [Declarations.members, hvoid, if_neg Bool.false_ne_true] at hmembers
  obtain ⟨below, rfl⟩ := Declarations.head_of_membersWithin hmembers
  have hmem : Path.whole ∈ bundle := (hpaths .whole).2 List.mem_cons_self
  exact Option.isSome_iff_exists.1 (ExtTreeMap.isSome_getElem?_iff_mem.2 hmem)

theorem Complete.get_of_field (h : Complete decls bundle ty)
    (hfields : decls.fields ty = .ok fields) {field : Field} (hfield : field ∈ fields) :
    ∃ extent, bundle[field.path]? = some extent := by
  obtain ⟨members, hmembers, hpaths⟩ := h
  obtain ⟨members', hmembers', heq⟩ := Declarations.map_path_of_fields hfields
  cases hmembers.symm.trans hmembers'
  have hmem : field.path ∈ bundle := (hpaths field.path).2 (heq ▸ List.mem_map_of_mem hfield)
  exact Option.isSome_iff_exists.1 (ExtTreeMap.isSome_getElem?_iff_mem.2 hmem)

theorem mem_scopedTo_iff {base path : Path} :
    path ∈ bundle.scopedTo base ↔ base ++ path ∈ bundle := by
  rw [← ExtTreeMap.isSome_getElem?_iff_mem, getElem?_scopedTo, ExtTreeMap.isSome_getElem?_iff_mem]

/-- The part of a complete bundle that belongs to a member is complete for it. -/
theorem Complete.scopedTo (h : Complete decls bundle ty) (hproper : decls.Proper ty)
    (hmember : decls.memberType? ty name = .ok (some inner)) :
    Complete decls (bundle.scopedTo (.single name)) inner := by
  obtain ⟨members, hmembers, hpaths⟩ := h
  obtain ⟨innerMembers, hinnerMembers⟩ := (hproper.memberType? hmember).1.exists_members
  refine ⟨innerMembers, hinnerMembers, fun path => ?_⟩
  rw [mem_scopedTo_iff, hpaths, Declarations.single_append_mem_members_iff hproper hmember hmembers
    hinnerMembers]

/-- A complete bundle has as many extents as there are members. -/
theorem Complete.size_eq (h : Complete decls bundle ty) (hproper : decls.Proper ty)
    (hmembers : decls.members ty = .ok members) : bundle.size = members.length := by
  obtain ⟨members', hmembers', hpaths⟩ := h
  cases hmembers.symm.trans hmembers'
  have hperm : bundle.keys.Perm (members.map Prod.fst) := by
    refine (List.perm_ext_iff_of_nodup ExtTreeMap.nodup_keys
      (Declarations.nodup_members hproper.layered.distinct hmembers)).2 fun path => ?_
    rw [ExtTreeMap.mem_keys, hpaths path]
  rw [← ExtTreeMap.length_keys, hperm.length_eq, List.length_map]

end Bundle
end Regions
