import Regions.Lifetime.Bundle

/-!
# Paths, path maps and bundles

Maps from paths are built from lists of entries, of which the last one for a path counts. A bundle
is such a map; the part of it below a member is found by the longer path.
-/

namespace Regions

open Std

/-! ## Paths -/

namespace Path

theorem append_assoc (p q r : Path) : p ++ q ++ r = p ++ (q ++ r) :=
  congrArg Path.mk (List.append_assoc _ _ _)

@[simp] theorem append_whole (p : Path) : p ++ whole = p :=
  congrArg Path.mk (List.append_nil _)

@[simp] theorem whole_append (p : Path) : whole ++ p = p := rfl

theorem child_eq_append (p : Path) (name : String) : p.child name = p ++ single name := rfl

theorem child_append (p : Path) (name : String) (q : Path) :
    p.child name ++ q = p ++ (single name ++ q) :=
  append_assoc p (single name) q

theorem append_child (p q : Path) (name : String) : p ++ q.child name = (p ++ q).child name :=
  congrArg Path.mk (List.append_assoc _ _ _).symm

theorem child_inj {p q : Path} {name other : String} :
    p.child name = q.child other ↔ p = q ∧ name = other := by
  constructor
  · intro h
    obtain ⟨hsegments, hlast⟩ := List.append_inj' (congrArg segments h) rfl
    exact ⟨congrArg Path.mk hsegments, (List.cons.inj hlast).1⟩
  · rintro ⟨rfl, rfl⟩
    rfl

theorem append_right_inj {p q r : Path} : p ++ q = p ++ r ↔ q = r := by
  constructor
  · intro h
    have hsegments := congrArg segments h
    exact congrArg Path.mk (List.append_cancel_left hsegments)
  · rintro rfl
    rfl

/-- Two paths meet below one base only if they take the same member there. -/
theorem eq_of_child_append_eq {p q r : Path} {name other : String}
    (h : p.child name ++ q = p.child other ++ r) : name = other := by
  rw [child_append, child_append, append_right_inj] at h
  exact (List.cons.inj (congrArg segments h)).1

end Path

/-! ## Maps -/

section PathMap

variable {α : Type} {entries : List (Path × α)} {path : Path} {value : α}

theorem mem_of_getElem?_insertMany {map : PathMap α}
    (h : (map.insertMany entries)[path]? = some value) :
    (path, value) ∈ entries ∨ map[path]? = some value := by
  induction entries generalizing map with
  | nil => exact .inr (by simpa using h)
  | cons entry entries ih =>
    rw [ExtTreeMap.insertMany_cons] at h
    rcases ih h with hmem | hinsert
    · exact .inl (List.mem_cons_of_mem _ hmem)
    · rw [ExtTreeMap.getElem?_insert] at hinsert
      split at hinsert
      · rename_i hcmp
        cases hinsert
        rw [← Std.compare_eq_iff_eq.1 hcmp]
        exact .inl List.mem_cons_self
      · exact .inr hinsert

/-- What a map gives for a path is one of its entries. -/
theorem mem_of_getElem?_ofList (h : (ExtTreeMap.ofList entries compare)[path]? = some value) :
    (path, value) ∈ entries := by
  rw [ExtTreeMap.ofList_eq_insertMany_empty] at h
  rcases mem_of_getElem?_insertMany h with hmem | hempty
  · exact hmem
  · simp at hempty

/-- A map gives something for the path of each of its entries. -/
theorem exists_getElem?_ofList (h : (path, value) ∈ entries) :
    ∃ value', (ExtTreeMap.ofList entries compare)[path]? = some value' := by
  have hmem : path ∈ ExtTreeMap.ofList entries compare := by
    rw [ExtTreeMap.mem_ofList]
    exact List.contains_iff_mem.2 (List.mem_map_of_mem h)
  exact Option.isSome_iff_exists.1 (ExtTreeMap.isSome_getElem?_iff_mem.2 hmem)

/-- Where the entries of a path agree, the map gives their value. -/
theorem getElem?_ofList (h : (path, value) ∈ entries)
    (hunique : ∀ value', (path, value') ∈ entries → value' = value) :
    (ExtTreeMap.ofList entries compare)[path]? = some value := by
  obtain ⟨value', hvalue'⟩ := exists_getElem?_ofList h
  rw [hvalue', hunique value' (mem_of_getElem?_ofList hvalue')]

end PathMap

/-! ## Bundles -/

namespace Bundle

theorem getElem?_scopedTo (bundle : Bundle) (base path : Path) :
    (bundle.scopedTo base)[path]? = bundle[base ++ path]? := by
  have hentry : ∀ extent, (path, extent) ∈ (bundle.toList.filterMap fun entry =>
      (entry.1.strip? base).map fun rest => (rest, entry.2)) ↔
      bundle[base ++ path]? = some extent := by
    intro extent
    simp only [List.mem_filterMap, Option.map_eq_some_iff, Path.strip?_eq_some_iff, Prod.mk.injEq]
    constructor
    · rintro ⟨⟨p, e⟩, hmem, rest, hp, rfl, rfl⟩
      rw [← hp]
      exact ExtTreeMap.mem_toList_iff_getElem?_eq_some.1 hmem
    · intro h
      exact ⟨(base ++ path, extent), ExtTreeMap.mem_toList_iff_getElem?_eq_some.2 h, path,
        rfl, rfl, rfl⟩
  cases hwhole : bundle[base ++ path]? with
  | none =>
    cases hpart : (bundle.scopedTo base)[path]? with
    | none => rfl
    | some extent =>
      have := (hentry extent).1 (mem_of_getElem?_ofList hpart)
      rw [hwhole] at this
      cases this
  | some extent =>
    refine getElem?_ofList ((hentry extent).2 hwhole) fun other hother => ?_
    have := (hentry other).1 hother
    rw [hwhole] at this
    exact (Option.some.inj this).symm

theorem mem_tracked_iff {bundle : Bundle} {l : Lifetime} : l ∈ bundle.tracked ↔
      ∃ (path : Path) (extent : Extent),
        bundle[path]? = some extent ∧ extent.value = l ∧ l.isNone = false := by
  simp only [tracked, List.mem_filter, List.mem_map, Prod.exists, Bool.not_eq_true',
    ExtTreeMap.mem_toList_iff_getElem?_eq_some]
  constructor
  · rintro ⟨⟨path, extent, hget, rfl⟩, hnone⟩
    exact ⟨path, extent, hget, rfl, hnone⟩
  · rintro ⟨path, extent, hget, rfl, hnone⟩
    exact ⟨⟨path, extent, hget, rfl⟩, hnone⟩

end Bundle
end Regions
