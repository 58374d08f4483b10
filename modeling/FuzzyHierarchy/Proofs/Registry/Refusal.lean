import FuzzyHierarchy.Proofs.Registry.Sweep
import FuzzyHierarchy.Registry.Inheritance

/-
Which of the references of a constraint its violation names. Own variables come before the target
class, and that before its variables; the first that is not there is named, whatever else is
missing.

Main statement: a constraint is refused with a violation exactly when the violation names its first
reference that does not resolve. What a class inherits is not there.
-/

namespace FuzzyHierarchy

namespace Registry

/-- What a constraint of `owner` is refused with. -/
inductive Refusal (registry : Registry) (owner : FuzzyClass) (constraint : Constraint) :
    DeclarationError → Prop
  /-- An own variable is missing, and no other before it. -/
  | ownVariable {name : String} :
    constraint.ownVariables.find? (· ∉ owner.vars) = some name →
    Refusal registry owner constraint (.undeclaredVariable owner.name name owner.name)
  /-- The own variables are there, and the target class is missing. -/
  | targetClass {target : String} :
    (∀ name ∈ constraint.ownVariables, name ∈ owner.vars) →
    constraint.target? = some target → target ∉ registry.names →
    Refusal registry owner constraint (.undeclaredClass owner.name target)
  /-- All but a variable of the target class is there, and no other is missing before it. -/
  | targetVariable {scope : FuzzyClass} {name : String} :
    (∀ name ∈ constraint.ownVariables, name ∈ owner.vars) →
    scope ∈ registry.toList → constraint.target? = some scope.name →
    constraint.targetVariables.find? (· ∉ scope.vars) = some name →
    Refusal registry owner constraint (.undeclaredVariable scope.name name owner.name)

/-- Whether the check of a constraint of `owner` ends in a violation. -/
def refuses (registry : Registry) (owner : FuzzyClass) (constraint : Constraint) : Bool :=
  match registry.checkConstraint owner constraint with
  | .ok (.error _) => true
  | _ => false

/-- A variable that a class does not declare, and one of its ancestors does. -/
def Inherits (registry : Registry) (id : ClassId) (name : String) : Prop :=
  ∃ cls above ancestor scope, registry.get? id = some cls ∧ name ∉ cls.vars ∧
    registry.ancestors id = .ok above ∧ ancestor ∈ above ∧
      registry.get? ancestor = some scope ∧ name ∈ scope.vars

/-- One of the variables of a constraint, own or of the target, is only inherited by the class that
has to declare it. -/
def UsesInherited (registry : Registry) (id : ClassId) (constraint : Constraint) : Prop :=
  (∃ name ∈ constraint.ownVariables, registry.Inherits id name) ∨
    ∃ target targetId, constraint.target? = some target ∧ registry.idOf? target = some targetId ∧
      ∃ name ∈ constraint.targetVariables, registry.Inherits targetId name

variable {registry : Registry} {owner : FuzzyClass} {constraint : Constraint}
  {violation : DeclarationError} {id : ClassId}

/-! ## What a constraint is refused with -/

theorem violation?_eq_some_iff (hwf : registry.WellFormed) :
    registry.violation? owner constraint = some violation ↔
      registry.Refusal owner constraint violation := by
  constructor
  · intro h
    cases hname : constraint.ownVariables.find? (· ∉ owner.vars) with
    | some name =>
      rw [violation?_of_ownVariable hname] at h
      cases h
      exact .ownVariable hname
    | none =>
      have hown : ∀ name ∈ constraint.ownVariables, name ∈ owner.vars := by
        simpa using List.find?_eq_none.1 hname
      cases htarget : constraint.target? with
      | none =>
        rw [violation?_of_no_target hown htarget] at h
        cases h
      | some target =>
        by_cases hregistered : target ∈ registry.names
        · obtain ⟨scope, hscope, rfl⟩ := hwf.mem_names_iff.1 hregistered
          rw [violation?_of_targetVariables hown hwf hscope htarget,
            Option.map_eq_some_iff] at h
          obtain ⟨name, hname, rfl⟩ := h
          exact .targetVariable hown hscope htarget hname
        · rw [violation?_of_targetClass hown htarget hregistered] at h
          cases h
          exact .targetClass hown htarget hregistered
  · intro h
    cases h with
    | ownVariable hname => exact violation?_of_ownVariable hname
    | targetClass hown htarget hfree => exact violation?_of_targetClass hown htarget hfree
    | targetVariable hown hscope htarget hname =>
      rw [violation?_of_targetVariables hown hwf hscope htarget, hname]
      rfl

theorem checkConstraint_eq_error_iff (hwf : registry.WellFormed) :
    registry.checkConstraint owner constraint = .ok (.error violation) ↔
      registry.Refusal owner constraint violation := by
  rw [← violation?_eq_some_iff hwf, hwf.checkConstraint_eq]
  cases registry.violation? owner constraint with
  | none => simp
  | some found => simp

theorem refuses_eq_true_iff (hwf : registry.WellFormed) :
    registry.refuses owner constraint = true ↔ registry.violation? owner constraint ≠ none := by
  rw [refuses, hwf.checkConstraint_eq]
  cases registry.violation? owner constraint with
  | none => simp
  | some found => simp

/-- The violations of a registry are what its constraints are refused with, one by one. -/
theorem forall₂_refusal (hwf : registry.WellFormed) :
    List.Forall₂ (fun obligation violation => registry.Refusal obligation.1 obligation.2 violation)
      (registry.obligations.filter fun obligation => registry.refuses obligation.1 obligation.2)
      registry.violations := by
  have hviolations : List.Forall₂
      (fun obligation violation => registry.violation? obligation.1 obligation.2 = some violation)
      (registry.obligations.filter fun obligation => registry.refuses obligation.1 obligation.2)
      registry.violations :=
    forall₂_filterMap (fun _ => refuses_eq_true_iff hwf) registry.obligations
  exact hviolations.imp fun _ _ => (violation?_eq_some_iff hwf).1

/-- Only two causes are left for a sweep to find. -/
theorem Refusal.eq_undeclared (h : registry.Refusal owner constraint violation) :
    (∃ scope name, violation = .undeclaredVariable scope name owner.name) ∨
      ∃ target, violation = .undeclaredClass owner.name target := by
  cases h with
  | ownVariable _ => exact .inl ⟨_, _, rfl⟩
  | targetClass _ _ _ => exact .inr ⟨_, rfl⟩
  | targetVariable _ _ _ _ => exact .inl ⟨_, _, rfl⟩

/-- A constraint that uses an inherited variable is refused. -/
theorem UsesInherited.exists_refusal (h : registry.UsesInherited id constraint)
    (hwf : registry.WellFormed) (hget : registry.get? id = some owner) :
    ∃ violation, registry.Refusal owner constraint violation := by
  simp only [← violation?_eq_some_iff hwf]
  rw [← Option.isSome_iff_exists, Option.isSome_iff_ne_none]
  intro hnone
  obtain ⟨hown, htarget⟩ := Constraint.forall_mem_references_iff.1 (violation?_eq_none_iff.1 hnone)
  obtain ⟨name, hname, cls, _, _, _, hcls, hfree, -⟩ |
    ⟨target, targetId, htarget?, hid, name, hname, cls, _, _, _, hcls, hfree, -⟩ := h
  · cases hget.symm.trans hcls
    exact hfree (hown name hname)
  · obtain ⟨scope, hscope, hsame, hvar⟩ := (htarget target htarget?).2 name hname
    obtain ⟨found, hfound, hname'⟩ := hwf.idOf?_eq_some_iff.1 hid
    cases hcls.symm.trans hfound
    rw [hwf.eq_of_name_eq hscope (mem_toList_of_get? hcls) (hsame.trans hname'.symm)] at hvar
    exact hfree hvar

end Registry

end FuzzyHierarchy
