import Mathlib.Data.List.Forall2

/-!
# Checks that pass

A check gives a result or an error. These laws take successful checks apart: sequences of checks,
and checks over the elements of a list.
-/

namespace Regions

variable {ε α β : Type}

theorem except_bind_eq_ok {x : Except ε α} {f : α → Except ε β} {b : β}
    (h : (x >>= f) = .ok b) : ∃ a, x = .ok a ∧ f a = .ok b := by
  cases x with
  | error e => cases h
  | ok a => exact ⟨a, rfl, h⟩

theorem forall₂_mem_left {R : α → β → Prop} {xs : List α} {ys : List β}
    (h : List.Forall₂ R xs ys) {x : α} (hx : x ∈ xs) : ∃ y ∈ ys, R x y := by
  induction h with
  | nil => simp at hx
  | cons hhead _ ih =>
    rcases List.mem_cons.1 hx with rfl | hx
    · exact ⟨_, List.mem_cons_self, hhead⟩
    · obtain ⟨y, hy, hR⟩ := ih hx
      exact ⟨y, List.mem_cons_of_mem _ hy, hR⟩

theorem forall₂_mem_right {R : α → β → Prop} {xs : List α} {ys : List β}
    (h : List.Forall₂ R xs ys) {y : β} (hy : y ∈ ys) : ∃ x ∈ xs, R x y :=
  forall₂_mem_left h.flip hy

theorem forall₂_getLast? {R : α → β → Prop} {xs : List α} {ys : List β}
    (h : List.Forall₂ R xs ys) {y : β} (hy : ys.getLast? = some y) :
    ∃ x, xs.getLast? = some x ∧ R x y := by
  induction h with
  | nil => cases hy
  | @cons x' y' xs ys hfirst hrest ih =>
    cases hrest with
    | nil =>
      cases hy
      exact ⟨x', rfl, hfirst⟩
    | cons _ _ => exact ih hy

theorem eq_map_of_forall₂ {f : α → β} {xs : List α} {ys : List β}
    (h : List.Forall₂ (fun x y => y = f x) xs ys) : ys = xs.map f := by
  induction h with
  | nil => rfl
  | cons hhead _ ih => rw [List.map_cons, hhead, ih]

theorem mapM_ok_cons_iff {f : α → Except ε β} {x : α} {xs : List α} {bs : List β} :
    (x :: xs).mapM f = .ok bs ↔
      ∃ b rest, f x = .ok b ∧ xs.mapM f = .ok rest ∧ bs = b :: rest := by
  rw [List.mapM_cons]
  cases f x with
  | error e => simp [bind, Except.bind]
  | ok b =>
    cases xs.mapM f with
    | error e => simp [bind, Except.bind]
    | ok rest => simp [bind, Except.bind, pure, Except.pure, eq_comm]

/-- Every element of a list that passes a check has a result, in the same place. -/
theorem forall₂_of_mapM_ok {f : α → Except ε β} {xs : List α} {bs : List β}
    (h : xs.mapM f = .ok bs) : List.Forall₂ (fun x b => f x = .ok b) xs bs := by
  induction xs generalizing bs with
  | nil =>
    rw [List.mapM_nil] at h
    cases h
    exact .nil
  | cons x xs ih =>
    obtain ⟨b, rest, hx, hxs, rfl⟩ := mapM_ok_cons_iff.1 h
    exact .cons hx (ih hxs)

/-- The results of a check that all elements of a list pass. -/
theorem exists_map_of_mapM_ok [Inhabited β] {f : α → Except ε β} {xs : List α} {bs : List β}
    (h : xs.mapM f = .ok bs) :
    ∃ g : α → β, (∀ x ∈ xs, f x = .ok (g x)) ∧ bs = xs.map g := by
  have hforall := forall₂_of_mapM_ok h
  refine ⟨fun x => (f x).toOption.getD default, fun x hx => ?_,
    eq_map_of_forall₂ (hforall.imp ?_)⟩
  · obtain ⟨b, -, hb⟩ := forall₂_mem_left hforall hx
    simp [hb, Except.toOption]
  · intro x b hb
    simp [hb, Except.toOption]

theorem forall₂_of_mapM_some {f : α → Option β} {xs : List α} {bs : List β}
    (h : xs.mapM f = some bs) : List.Forall₂ (fun x b => f x = some b) xs bs := by
  induction xs generalizing bs with
  | nil =>
    rw [List.mapM_nil] at h
    cases h
    exact .nil
  | cons x xs ih =>
    rw [List.mapM_cons] at h
    obtain ⟨b, hb, h⟩ := Option.bind_eq_some_iff.1 h
    obtain ⟨rest, hrest, h⟩ := Option.bind_eq_some_iff.1 h
    cases h
    exact .cons hb (ih hrest)

theorem of_anyM_eq_ok {f : α → Except ε Bool} {xs : List α} {b : Bool}
    (h : xs.anyM f = .ok b) : (b = true → ∃ x ∈ xs, f x = .ok true) ∧
    (b = false → ∀ x ∈ xs, f x = .ok false) := by
  induction xs with
  | nil =>
    cases h
    simp
  | cons x xs ih =>
    rw [List.anyM] at h
    cases hx : f x with
    | error e => simp [hx, bind, Except.bind] at h
    | ok first =>
      cases first with
      | true =>
        obtain rfl : true = b := by simpa [hx, bind, Except.bind, pure, Except.pure] using h
        simp [hx]
      | false =>
        have hxs := ih (by simpa [hx, bind, Except.bind] using h)
        simpa [hx] using hxs

theorem mem_of_filterMapM_ok {f : α → Except ε (Option β)} {xs : List α} {ys : List β}
    (h : xs.filterMapM f = .ok ys) {x : α} {y : β} (hx : x ∈ xs)
    (hy : ∀ y?, f x = .ok y? → y? = some y) : y ∈ ys := by
  induction xs generalizing ys with
  | nil => cases hx
  | cons first xs ih =>
    rw [List.filterMapM_cons] at h
    obtain ⟨y?, hfirst, h⟩ := except_bind_eq_ok h
    cases y? with
    | none =>
      rcases List.mem_cons.1 hx with rfl | hx
      · cases hy none hfirst
      · exact ih h hx
    | some found =>
      obtain ⟨rest, hrest, h⟩ := except_bind_eq_ok h
      cases h
      rcases List.mem_cons.1 hx with rfl | hx
      · cases hy _ hfirst
        exact List.mem_cons_self
      · exact List.mem_cons_of_mem _ (ih hrest hx)

theorem exists_of_mem_filterMapM_ok {f : α → Except ε (Option β)} {xs : List α} {ys : List β}
    (h : xs.filterMapM f = .ok ys) {y : β} (hy : y ∈ ys) : ∃ x ∈ xs, f x = .ok (some y) := by
  induction xs generalizing ys with
  | nil =>
    cases h
    cases hy
  | cons first xs ih =>
    rw [List.filterMapM_cons] at h
    obtain ⟨y?, hfirst, h⟩ := except_bind_eq_ok h
    cases y? with
    | none =>
      obtain ⟨x, hx, hfound⟩ := ih h hy
      exact ⟨x, List.mem_cons_of_mem _ hx, hfound⟩
    | some found =>
      obtain ⟨rest, hrest, h⟩ := except_bind_eq_ok h
      cases h
      rcases List.mem_cons.1 hy with rfl | hy
      · exact ⟨first, List.mem_cons_self, hfirst⟩
      · obtain ⟨x, hx, hfound⟩ := ih hrest hy
        exact ⟨x, List.mem_cons_of_mem _ hx, hfound⟩

/-! ## Checks that all succeed -/

theorem mapM_ok_of_forall {f : α → Except ε β} {xs : List α}
    (h : ∀ x ∈ xs, ∃ b, f x = .ok b) : ∃ bs, xs.mapM f = .ok bs := by
  induction xs with
  | nil => exact ⟨[], rfl⟩
  | cons x xs ih =>
    obtain ⟨b, hb⟩ := h x List.mem_cons_self
    obtain ⟨bs, hbs⟩ := ih fun y hy => h y (List.mem_cons_of_mem _ hy)
    exact ⟨b :: bs, mapM_ok_cons_iff.2 ⟨b, bs, hb, hbs, rfl⟩⟩

theorem anyM_ok_of_forall {f : α → Except ε Bool} {xs : List α}
    (h : ∀ x ∈ xs, ∃ b, f x = .ok b) : ∃ b, xs.anyM f = .ok b := by
  induction xs with
  | nil => exact ⟨false, rfl⟩
  | cons x xs ih =>
    obtain ⟨b, hb⟩ := h x List.mem_cons_self
    obtain ⟨rest, hrest⟩ := ih fun y hy => h y (List.mem_cons_of_mem _ hy)
    rw [List.anyM, hb]
    cases b with
    | true => exact ⟨true, rfl⟩
    | false => exact ⟨rest, hrest⟩

theorem filterMapM_ok_of_forall {f : α → Except ε (Option β)} {xs : List α}
    (h : ∀ x ∈ xs, ∃ b, f x = .ok b) : ∃ bs, xs.filterMapM f = .ok bs := by
  induction xs with
  | nil => exact ⟨[], rfl⟩
  | cons x xs ih =>
    obtain ⟨b, hb⟩ := h x List.mem_cons_self
    obtain ⟨bs, hbs⟩ := ih fun y hy => h y (List.mem_cons_of_mem _ hy)
    rw [List.filterMapM_cons, hb]
    cases b with
    | none => exact ⟨bs, hbs⟩
    | some b => exact ⟨b :: bs, by simp [hbs, bind, Except.bind, pure, Except.pure]⟩

/-! ## Results that are there -/

instance decidableExistsOk {result : Except ε α} {P : α → Prop} [∀ a, Decidable (P a)] :
    Decidable (∃ a, result = .ok a ∧ P a) :=
  match result with
  | .ok a => decidable_of_iff (P a) (by simp)
  | .error _ => .isFalse (by simp)

instance decidableEqError [DecidableEq ε] {result : Except ε α} {e : ε} :
    Decidable (result = .error e) :=
  match result with
  | .ok _ => .isFalse (by simp)
  | .error other => decidable_of_iff (other = e) (by simp)

instance decidableExistsSomePair {value : Option (α × β)} {P : α → β → Prop}
    [∀ a b, Decidable (P a b)] : Decidable (∃ a b, value = some (a, b) ∧ P a b) :=
  match value with
  | some (a, b) => decidable_of_iff (P a b) (by simp)
  | none => .isFalse (by simp)

end Regions
