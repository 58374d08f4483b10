import FuzzyHierarchy.Fault
import Mathlib.Data.List.Forall2

/-
Lists that are related value by value: what holds of the values of the one holds of those of the
other, and functions that the relation respects read the same off both.
-/

namespace FuzzyHierarchy

variable {α β γ : Type} {related : α → β → Prop} {p : α → Prop} {q : β → Prop} {xs : List α}
  {ys : List β}

theorem forall_mem_iff_of_forall₂ (h : List.Forall₂ related xs ys)
    (hiff : ∀ x y, related x y → (p x ↔ q y)) : (∀ x ∈ xs, p x) ↔ ∀ y ∈ ys, q y := by
  induction h with
  | nil => simp
  | cons hrelated _ ih => rw [List.forall_mem_cons, List.forall_mem_cons, hiff _ _ hrelated, ih]

theorem exists_mem_iff_of_forall₂ (h : List.Forall₂ related xs ys)
    (hiff : ∀ x y, related x y → (p x ↔ q y)) : (∃ x ∈ xs, p x) ↔ ∃ y ∈ ys, q y := by
  induction h with
  | nil => simp
  | cons hrelated _ ih =>
    rw [List.exists_mem_cons_iff, List.exists_mem_cons_iff, hiff _ _ hrelated, ih]

theorem forall₂_comp {next : β → γ → Prop} {zs : List γ} (h : List.Forall₂ related xs ys)
    (hnext : List.Forall₂ next ys zs) :
    List.Forall₂ (fun x z => ∃ y, related x y ∧ next y z) xs zs := by
  induction h generalizing zs with
  | nil =>
    cases hnext
    exact .nil
  | cons hrelated _ ih =>
    obtain ⟨z, zs, hz, hzs, rfl⟩ := List.forall₂_cons_left_iff.1 hnext
    exact .cons ⟨_, hrelated, hz⟩ (ih hzs)

theorem exists_forall₂_iff : (∃ ys, List.Forall₂ related xs ys) ↔ ∀ x ∈ xs, ∃ y, related x y := by
  induction xs with
  | nil => simp
  | cons x xs ih =>
    rw [List.forall_mem_cons, ← ih]
    constructor
    · rintro ⟨_, h⟩
      obtain ⟨y, ys, hy, hys, -⟩ := List.forall₂_cons_left_iff.1 h
      exact ⟨⟨y, hy⟩, ys, hys⟩
    · rintro ⟨⟨y, hy⟩, ys, hys⟩
      exact ⟨y :: ys, .cons hy hys⟩

/-- A list is related to what an optional function gives on it, where the function gives something.
-/
theorem forall₂_filterMap {f : α → Option β} {given : α → Bool}
    (hgiven : ∀ x, given x = true ↔ f x ≠ none) (xs : List α) :
    List.Forall₂ (fun x y => f x = some y) (xs.filter given) (xs.filterMap f) := by
  induction xs with
  | nil => exact .nil
  | cons x xs ih =>
    rw [List.filterMap_cons]
    cases hx : f x with
    | none =>
      rw [List.filter_cons_of_neg (by simp [hgiven, hx])]
      exact ih
    | some y =>
      rw [List.filter_cons_of_pos (by simp [hgiven, hx])]
      exact .cons hx ih

/-- The values in one place are related. -/
theorem exists_getElem?_of_forall₂ (h : List.Forall₂ related xs ys) {i : Nat} {x : α}
    (hx : xs[i]? = some x) : ∃ y, ys[i]? = some y ∧ related x y := by
  obtain ⟨hlt, rfl⟩ := List.getElem?_eq_some_iff.1 hx
  obtain ⟨hlength, hplace⟩ := List.forall₂_iff_get.1 h
  have hlt' : i < ys.length := hlength ▸ hlt
  exact ⟨ys[i], List.getElem?_eq_getElem hlt', hplace i hlt hlt'⟩

theorem exists_mem_of_forall₂ (h : List.Forall₂ related xs ys) {x : α} (hx : x ∈ xs) :
    ∃ y ∈ ys, related x y := by
  obtain ⟨i, hi⟩ := List.mem_iff_getElem?.1 hx
  obtain ⟨y, hy, hrelated⟩ := exists_getElem?_of_forall₂ h hi
  exact ⟨y, List.mem_of_getElem? hy, hrelated⟩

theorem map_eq_map_of_forall₂ {f : α → γ} {g : β → γ} (h : List.Forall₂ related xs ys)
    (hsame : ∀ x y, related x y → f x = g y) : xs.map f = ys.map g := by
  induction h with
  | nil => rfl
  | cons hrelated _ ih => rw [List.map_cons, List.map_cons, hsame _ _ hrelated, ih]

theorem flatMap_eq_flatMap_of_forall₂ {f : α → List γ} {g : β → List γ}
    (h : List.Forall₂ related xs ys) (hsame : ∀ x y, related x y → f x = g y) :
    xs.flatMap f = ys.flatMap g := by
  rw [List.flatMap_def, List.flatMap_def, map_eq_map_of_forall₂ h hsame]

/-- A list is mapped without an error exactly when each of its values is. -/
theorem mapM_eq_ok_iff {ε : Type} {f : α → Except ε β} :
    xs.mapM f = .ok ys ↔ List.Forall₂ (fun x y => f x = .ok y) xs ys := by
  induction xs generalizing ys with
  | nil =>
    rw [List.mapM_nil, List.forall₂_nil_left_iff]
    exact ⟨fun h => (Except.ok.inj h).symm, fun h => h ▸ rfl⟩
  | cons x xs ih =>
    rw [List.mapM_cons, List.forall₂_cons_left_iff]
    constructor
    · intro h
      obtain ⟨y, hy, h⟩ := exists_of_bind_eq_ok h
      obtain ⟨ys, hys, h⟩ := exists_of_bind_eq_ok h
      exact ⟨y, ys, hy, ih.1 hys, (Except.ok.inj h).symm⟩
    · rintro ⟨y, ys, hy, hys, rfl⟩
      rw [bind_of_eq_ok hy, bind_of_eq_ok (ih.2 hys)]
      rfl

end FuzzyHierarchy
