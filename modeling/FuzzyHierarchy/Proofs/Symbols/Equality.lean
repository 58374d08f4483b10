import FuzzyHierarchy.Symbols.Constants
import FuzzyHierarchy.Symbols.Variables
import Mathlib.Data.List.Nodup
import Mathlib.Data.List.Perm.Subperm

/-
Equality of symbol containers. The comparison looks at the sizes and goes through the left container
only, but as names are declared once, nothing can be left over on the right.

Main statement: containers are equal exactly when they answer every lookup alike, which is to say
that they list the same symbols, in any order.
-/

namespace FuzzyHierarchy

/-- A list without repeats is a rearrangement of each list of its length that has all its values. -/
theorem perm_iff_of_nodup {α : Type} {xs ys : List α} (h : xs.Nodup) :
    xs.Perm ys ↔ xs.length = ys.length ∧ xs ⊆ ys := by
  constructor
  · intro hperm
    exact ⟨hperm.length_eq, hperm.subset⟩
  · rintro ⟨hlength, hsubset⟩
    exact (List.subperm_of_subset h hsubset).perm_of_length_le (Nat.le_of_eq hlength.symm)

namespace Variables

variable {a b : Variables}

theorem nodup_toList (vars : Variables) : vars.toList.Nodup := vars.nodup

theorem beq_iff_perm : (a == b) = true ↔ a.toList.Perm b.toList := by
  rw [perm_iff_of_nodup a.nodup_toList]
  change (a.size == b.size && a.names.all b.contains) = true ↔ _
  rw [Bool.and_eq_true, beq_iff_eq, List.all_eq_true]
  simp only [contains_eq_true_iff]
  rfl

theorem perm_iff_contains :
    a.toList.Perm b.toList ↔ ∀ name, a.contains name = b.contains name := by
  rw [List.perm_ext_iff_of_nodup a.nodup_toList b.nodup_toList]
  refine forall_congr' fun name => ?_
  rw [Bool.eq_iff_iff, contains_eq_true_iff, contains_eq_true_iff, mem_toList, mem_toList]

end Variables

namespace Constants

variable {a b : Constants}

theorem nodup_toList (consts : Constants) : consts.toList.Nodup :=
  consts.nodup.of_map Prod.fst

theorem beq_iff_perm : (a == b) = true ↔ a.toList.Perm b.toList := by
  rw [perm_iff_of_nodup a.nodup_toList]
  change (a.size == b.size && a.toList.all fun entry => b.get? entry.1 == some entry.2) = true ↔ _
  rw [Bool.and_eq_true, beq_iff_eq, List.all_eq_true]
  simp only [beq_iff_eq, get?_eq_some_iff]
  rfl

theorem perm_iff_get? : a.toList.Perm b.toList ↔ ∀ name, a.get? name = b.get? name := by
  rw [List.perm_ext_iff_of_nodup a.nodup_toList b.nodup_toList]
  constructor
  · intro hmem name
    ext value
    rw [get?_eq_some_iff, get?_eq_some_iff, hmem]
  · rintro hget ⟨name, value⟩
    rw [← get?_eq_some_iff, ← get?_eq_some_iff, hget]

end Constants

/-- Equality of symbol containers is extensional: it says of two sets of variables that they hold
the same names, and of two maps of constants that they give the same values to the same names. What
they list are rearrangements of each other then. So it is an equivalence on both. -/
theorem symbols_beq_iff_agree :
    (∀ a b : Variables,
      ((a == b) = true ↔ ∀ name, a.contains name = b.contains name) ∧
      ((a == b) = true ↔ a.toList.Perm b.toList)) ∧
    (∀ a b : Constants,
      ((a == b) = true ↔ ∀ name, a.get? name = b.get? name) ∧
      ((a == b) = true ↔ a.toList.Perm b.toList)) ∧
    Equivalence (fun a b : Variables => (a == b) = true) ∧
    Equivalence (fun a b : Constants => (a == b) = true) := by
  refine ⟨fun a b => ⟨Variables.beq_iff_perm.trans Variables.perm_iff_contains,
    Variables.beq_iff_perm⟩, fun a b => ⟨Constants.beq_iff_perm.trans Constants.perm_iff_get?,
    Constants.beq_iff_perm⟩, ?_, ?_⟩
  · simp only [Variables.beq_iff_perm]
    exact (List.Perm.eqv String).comap Variables.toList
  · simp only [Constants.beq_iff_perm]
    exact (List.Perm.eqv (String × String)).comap Constants.toList

end FuzzyHierarchy
