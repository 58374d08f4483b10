import FuzzyHierarchy.Proofs.Registry.References

/-
The violations of a registry, told without a sweep. A constraint violates the registry when one of
its references does not resolve, and its violation is that of the first such reference in checking
order.

Main statements: the violation of a constraint, group by group of its references; and a registry is
consistent exactly when it has no violation.
-/

namespace FuzzyHierarchy

/-- The violations that a policy reports, of all there are. -/
def Policy.reported (policy : Policy) (violations : List DeclarationError) :
    List DeclarationError :=
  match policy with
  | .failFast => violations.take 1
  | .collectAll => violations

theorem Policy.reported_eq_nil_iff {policy : Policy} {violations : List DeclarationError} :
    policy.reported violations = [] ↔ violations = [] := by
  cases policy <;> simp [reported]

theorem Policy.reported_sublist {policy : Policy} {violations : List DeclarationError} :
    (policy.reported violations).Sublist violations := by
  cases policy with
  | failFast => exact List.take_sublist 1 violations
  | collectAll => exact List.Sublist.refl violations

/-- The violation that a reference of a constraint of `owner` makes when it is the first that does
not resolve. -/
def Reference.violation (owner : FuzzyClass) : Reference → DeclarationError
  | .ownVariable name => .undeclaredVariable owner.name name owner.name
  | .targetClass target => .undeclaredClass owner.name target
  | .targetVariable target name => .undeclaredVariable target name owner.name

namespace Registry

variable {registry : Registry} {owner scope : FuzzyClass} {constraint : Constraint}
  {name target : String}

/-- The violation of a constraint, if one of its references does not resolve: that of the first. -/
def violation? (registry : Registry) (owner : FuzzyClass) (constraint : Constraint) :
    Option DeclarationError :=
  (constraint.references.find? fun reference => ¬ registry.Resolves owner reference).map
    (·.violation owner)

/-- The violations of the constraints, classes in the order of registration and constraints in the
order of the class. -/
def violations (registry : Registry) : List DeclarationError :=
  registry.obligations.filterMap fun obligation => registry.violation? obligation.1 obligation.2

theorem violations_eq_flatMap (registry : Registry) : registry.violations =
    registry.toList.flatMap fun cls =>
      cls.constraints.toList.filterMap (registry.violation? cls) := by
  simp only [violations, obligations, List.filterMap_flatMap, List.filterMap_map]
  rfl

theorem violation?_eq_none_iff :
    registry.violation? owner constraint = none ↔
      ∀ reference ∈ constraint.references, registry.Resolves owner reference := by
  simp [violation?]

theorem violations_eq_nil_iff : registry.violations = [] ↔ registry.Consistent := by
  rw [violations, List.filterMap_eq_nil_iff]
  constructor
  · intro h owner howner constraint hconstraint
    exact violation?_eq_none_iff.1 (h _ (mem_obligations_iff.2 ⟨howner, hconstraint⟩))
  · rintro h ⟨owner, constraint⟩ hmem
    obtain ⟨howner, hconstraint⟩ := mem_obligations_iff.1 hmem
    exact violation?_eq_none_iff.2 (h owner howner constraint hconstraint)

/-- There is one violation for each constraint of which a reference does not resolve, in order. -/
theorem forall₂_violations (registry : Registry) :
    List.Forall₂ (fun obligation violation =>
        registry.violation? obligation.1 obligation.2 = some violation)
      (registry.obligations.filter fun obligation =>
        ¬ ∀ reference ∈ obligation.2.references, registry.Resolves obligation.1 reference)
      registry.violations := by
  refine forall₂_filterMap (fun obligation => ?_) registry.obligations
  rw [decide_eq_true_iff, ne_eq, violation?_eq_none_iff]

/-! ## The first reference that does not resolve, group by group -/

theorem violation?_of_ownVariable
    (hname : constraint.ownVariables.find? (· ∉ owner.vars) = some name) :
    registry.violation? owner constraint =
      some (.undeclaredVariable owner.name name owner.name) := by
  have hown : (constraint.ownVariables.map Reference.ownVariable).find?
      (fun reference => ¬ registry.Resolves owner reference) = some (.ownVariable name) := by
    rw [List.find?_map]
    exact congrArg (Option.map Reference.ownVariable) hname
  rw [violation?, Constraint.references, List.find?_append, hown]
  rfl

section

variable (hown : ∀ name ∈ constraint.ownVariables, name ∈ owner.vars)

include hown

/-- Where the own variables are there, the violation is one of the other references. -/
theorem violation?_of_target (htarget : constraint.target? = some target) :
    registry.violation? owner constraint =
      ((.targetClass target :: constraint.targetVariables.map (.targetVariable target)).find?
        fun reference => ¬ registry.Resolves owner reference).map (·.violation owner) := by
  have hnone : (constraint.ownVariables.map Reference.ownVariable).find?
      (fun reference => ¬ registry.Resolves owner reference) = none := by
    rw [List.find?_map, Option.map_eq_none_iff, List.find?_eq_none]
    intro name hname
    have hresolves : registry.Resolves owner (.ownVariable name) := hown name hname
    simpa using hresolves
  rw [violation?, Constraint.references, List.find?_append, hnone, htarget]
  rfl

theorem violation?_of_no_target (htarget : constraint.target? = none) :
    registry.violation? owner constraint = none := by
  refine violation?_eq_none_iff.2 (Constraint.forall_mem_references_iff.2 ⟨hown, ?_⟩)
  simp [htarget]

theorem violation?_of_targetClass (htarget : constraint.target? = some target)
    (hfree : target ∉ registry.names) :
    registry.violation? owner constraint = some (.undeclaredClass owner.name target) := by
  have hunresolved : ¬ registry.Resolves owner (.targetClass target) := hfree
  rw [violation?_of_target hown htarget, List.find?_cons_of_pos (by simpa using hunresolved)]
  rfl

theorem violation?_of_targetVariables (hwf : registry.WellFormed)
    (hscope : scope ∈ registry.toList) (htarget : constraint.target? = some scope.name) :
    registry.violation? owner constraint =
      (constraint.targetVariables.find? (· ∉ scope.vars)).map
        fun name => .undeclaredVariable scope.name name owner.name := by
  have hregistered : registry.Resolves owner (.targetClass scope.name) :=
    hwf.mem_names_iff.2 ⟨scope, hscope, rfl⟩
  -- the names are distinct, so a variable of the target is looked for in `scope` and nowhere else
  have hresolves : ∀ name,
      registry.Resolves owner (.targetVariable scope.name name) ↔ name ∈ scope.vars := by
    intro name
    constructor
    · rintro ⟨other, hother, hsame, hvar⟩
      rwa [hwf.eq_of_name_eq hother hscope hsame] at hvar
    · exact fun hvar => ⟨scope, hscope, rfl, hvar⟩
  rw [violation?_of_target hown htarget, List.find?_cons_of_neg (by simpa using hregistered),
    List.find?_map, Option.map_map]
  simp only [Function.comp_def, hresolves]
  rfl

end

end Registry

end FuzzyHierarchy
