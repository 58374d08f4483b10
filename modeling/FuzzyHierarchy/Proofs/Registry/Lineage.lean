import FuzzyHierarchy.Registry.Inheritance
import FuzzyHierarchy.Proofs.Registry.Lookup

/-
The way up from a class to the top of its hierarchy, told without a bound. Every superclass is
registered before the classes that extend it, so the way ends, after no more classes than there are.

Main statements: every registered class has a lineage, and it is what the bounded chain gives, so
the ancestors and the symbols of a class are always found.
-/

namespace FuzzyHierarchy

namespace Registry

/-- The classes on the way up from `start`, nearest first, up to one without a superclass. -/
inductive Lineage (registry : Registry) : Option ClassId → List (ClassId × FuzzyClass) → Prop
  | top : Lineage registry none []
  | above {id : ClassId} {cls : FuzzyClass} {classes : List (ClassId × FuzzyClass)} :
    registry.get? id = some cls → Lineage registry cls.superclass? classes →
      Lineage registry (some id) ((id, cls) :: classes)

variable {registry : Registry} {cls : FuzzyClass} {id : ClassId} {start : Option ClassId}
  {classes : List (ClassId × FuzzyClass)} {i : Nat}

theorem Lineage.chain_eq_ok (h : Lineage registry start classes) {bound : Nat}
    (hbound : classes.length ≤ bound) : registry.chain bound start = .ok classes := by
  induction h generalizing bound with
  | top => cases bound <;> rfl
  | above hget _ ih =>
    cases bound with
    | zero => cases hbound
    | succ bound =>
      simp only [chain, fetch, hget, bind_of_eq_ok rfl]
      rw [bind_of_eq_ok (ih (Nat.le_of_succ_le_succ hbound))]
      rfl

namespace WellFormed

theorem length_le (hwf : registry.WellFormed) (h : Lineage registry start classes) :
    ∀ i, start = some (.entry i) → classes.length ≤ i + 1 := by
  induction h with
  | top => intro i hstart; cases hstart
  | @above id cls classes hget habove ih =>
    rintro i ⟨⟩
    cases hsuper : cls.superclass? with
    | none =>
      rw [hsuper] at habove
      cases habove
      exact Nat.succ_le_succ (Nat.zero_le i)
    | some parent =>
      obtain ⟨j, hj, rfl⟩ := hwf.superclass_earlier i cls parent hget hsuper
      exact Nat.succ_le_succ (Nat.le_trans (ih j hsuper) hj)

/-- Every registered class has a lineage. -/
theorem exists_lineage (hwf : registry.WellFormed) (i : Nat)
    (hi : i < registry.toList.length) :
    ∃ classes, Lineage registry (some (.entry i)) classes := by
  induction i using Nat.strongRecOn with
  | ind i ih =>
    obtain ⟨cls, hget⟩ := holds_iff.1 (holds_entry_iff.2 hi)
    have habove : ∃ classes, Lineage registry cls.superclass? classes := by
      cases hsuper : cls.superclass? with
      | none => exact ⟨[], .top⟩
      | some parent =>
        obtain ⟨j, hj, rfl⟩ := hwf.superclass_earlier i cls parent hget hsuper
        exact ih j hj (Nat.lt_trans hj hi)
    obtain ⟨classes, hclasses⟩ := habove
    exact ⟨_, .above hget hclasses⟩

theorem exists_lineage_superclass (hwf : registry.WellFormed) (hget : registry.get? id = some cls) :
    ∃ classes, Lineage registry cls.superclass? classes := by
  obtain ⟨i, rfl, hi⟩ := get?_eq_some_iff.1 hget
  obtain ⟨classes, hclasses⟩ :=
    hwf.exists_lineage i (holds_entry_iff.1 (holds_iff.2 ⟨cls, hget⟩))
  cases hclasses with
  | above hget' habove =>
    cases hget.symm.trans hget'
    exact ⟨_, habove⟩

/-- A lineage is never longer than the bound of a chain. -/
theorem chain_eq_ok (hwf : registry.WellFormed) (h : Lineage registry start classes) :
    registry.chain registry.slots.size start = .ok classes := by
  refine h.chain_eq_ok ?_
  cases h with
  | top => exact Nat.zero_le _
  | above hget habove =>
    obtain ⟨i, rfl, hi⟩ := get?_eq_some_iff.1 hget
    have hlt := holds_entry_iff.1 (holds_iff.2 ⟨_, hget⟩)
    exact Nat.le_trans (hwf.length_le (.above hget habove) i rfl) hlt

theorem ancestors_eq_ok (hwf : registry.WellFormed) (hget : registry.get? id = some cls)
    (h : Lineage registry cls.superclass? classes) :
    registry.ancestors id = .ok (classes.map Prod.fst) := by
  simp only [ancestors, hget, hwf.chain_eq_ok h]
  rfl

theorem lineage_eq_ok (hwf : registry.WellFormed) (h : Lineage registry (some id) classes) :
    registry.lineage id = .ok (classes.map Prod.snd) := by
  have hheld : registry.holds id = true := by
    cases h with
    | above hget _ => exact holds_iff.2 ⟨_, hget⟩
  rw [lineage, if_pos hheld, hwf.chain_eq_ok h]
  rfl

end WellFormed

end Registry

end FuzzyHierarchy
