import FuzzyHierarchy.Proofs.Registry.Violations

/-
The sweep over a registry. It fetches each class by its id and finds each target by its name, so it
needs the table to lead to the slots.

Main statement: a sweep meets no fault; it finds one violation for each constraint that violates the
registry, in order, or the first of them under the fail-fast policy; and if there is none, it gives
the dependencies of the classes one class after another.
-/

namespace FuzzyHierarchy

/-- The first of the variables that `scope` does not declare is the one that is refused. -/
theorem FuzzyClass.checkVariables_eq (scope : FuzzyClass) (names : List String)
    (referencedFrom : String) :
    scope.checkVariables names referencedFrom =
      ((names.find? (· ∉ scope.vars)).map fun name =>
        .undeclaredVariable scope.name name referencedFrom).elim (.ok ()) .error := by
  induction names with
  | nil => rfl
  | cons name names ih =>
    change (scope.checkVariable name referencedFrom >>= fun _ =>
      scope.checkVariables names referencedFrom) = _
    by_cases hname : name ∈ scope.vars
    · have hcheck : scope.checkVariable name referencedFrom = .ok () := by
        simp [checkVariable, declares, hname]
      rw [bind_of_eq_ok hcheck, List.find?_cons_of_neg (by simpa using hname), ih]
    · have hcheck : scope.checkVariable name referencedFrom =
          .error (.undeclaredVariable scope.name name referencedFrom) := by
        simp [checkVariable, declares, hname]
      rw [hcheck, List.find?_cons_of_pos (by simpa using hname)]
      rfl

namespace Policy

variable {α β : Type} {policy : Policy} {find : α → Except Fault Findings} {parts : List α}

/-- A part of a sweep meets no fault. Of the violations that there are it finds those that the
policy reports; if there are none, it finds the dependencies. -/
def Finds (policy : Policy) (found : Except Fault Findings) (violations : List DeclarationError)
    (dependencies : List Dependency) : Prop :=
  ∃ findings, found = .ok findings ∧ findings.violations = policy.reported violations ∧
    (violations = [] → findings.dependencies = dependencies)

theorem collect_map (f : β → α) (parts : List β) :
    policy.collect find (parts.map f) = policy.collect (fun part => find (f part)) parts := by
  induction parts with
  | nil => rfl
  | cons part rest ih => rw [List.map_cons, collect, collect, ih]

/-- A sweep ends under the fail-fast policy alone, and only where a violation was found. -/
theorem ends_eq_true_iff {findings : Findings} :
    policy.ends findings = true ↔ policy = .failFast ∧ findings.violations ≠ [] := by
  simp [ends]

/-- What the parts have is what all of them together have. -/
theorem collect_finds {violations : α → List DeclarationError}
    {dependencies : α → List Dependency}
    (h : ∀ part ∈ parts, policy.Finds (find part) (violations part) (dependencies part)) :
    policy.Finds (policy.collect find parts) (parts.flatMap violations)
      (parts.flatMap dependencies) := by
  induction parts with
  | nil => exact ⟨{}, rfl, by cases policy <;> rfl, fun _ => rfl⟩
  | cons part rest ih =>
    obtain ⟨hpart, hrest⟩ := List.forall_mem_cons.1 h
    obtain ⟨findings, hfind, hviolations, hdependencies⟩ := hpart
    obtain ⟨later, hlater, hlaterViolations, hlaterDependencies⟩ := ih hrest
    rw [collect, bind_of_eq_ok hfind, List.flatMap_cons, List.flatMap_cons]
    split
    · rename_i hends
      -- the first part has a violation already, and no other is reported
      obtain ⟨rfl, hsome⟩ := ends_eq_true_iff.1 hends
      have hpart : violations part ≠ [] := fun hnone =>
        hsome (hviolations.trans (reported_eq_nil_iff.2 hnone))
      refine ⟨findings, rfl, ?_, fun hnone => absurd (List.append_eq_nil_iff.1 hnone).1 hpart⟩
      obtain ⟨violation, others, heq⟩ := List.exists_cons_of_ne_nil hpart
      rw [hviolations, heq]
      rfl
    · rename_i hgoes
      refine ⟨findings ++ later, bind_of_eq_ok hlater _, ?_, fun hnone => ?_⟩
      · change findings.violations ++ later.violations = _
        rw [hviolations, hlaterViolations]
        cases policy with
        | collectAll => rfl
        | failFast =>
          have hnone : violations part = [] := by
            rw [ends_eq_true_iff, not_and, not_not] at hgoes
            exact reported_eq_nil_iff.1 (hviolations.symm.trans (hgoes rfl))
          rw [hnone]
          rfl
      · obtain ⟨hnone, hlaterNone⟩ := List.append_eq_nil_iff.1 hnone
        exact congrArg₂ (· ++ ·) (hdependencies hnone) (hlaterDependencies hlaterNone)

end Policy

namespace Registry.WellFormed

variable {registry : Registry} (hwf : registry.WellFormed)

include hwf

/-- A relation whose target is there is refused with the first variable that the target lacks. -/
theorem checkRelation_eq (owner : FuzzyClass) {scope : FuzzyClass}
    (hscope : scope ∈ registry.toList) (names : List String) :
    (registry.checkRelation owner scope.name names).run =
      .ok (((names.find? (· ∉ scope.vars)).map fun name =>
        .undeclaredVariable scope.name name owner.name).elim
          (.ok { owner := owner.name, target := scope.name }) .error) := by
  rw [checkRelation, hwf.find?_eq_some_iff.2 ⟨hscope, rfl⟩]
  change (do
    scope.checkVariables names owner.name
    return { owner := owner.name, target := scope.name } :
      ExceptT DeclarationError (Except Fault) Dependency).run = _
  rw [FuzzyClass.checkVariables_eq]
  cases names.find? (· ∉ scope.vars) <;> rfl

/-- A constraint is refused with its violation, or else gives its dependency. -/
theorem checkConstraint_eq (owner : FuzzyClass) (constraint : Constraint) :
    registry.checkConstraint owner constraint =
      .ok ((registry.violation? owner constraint).elim (.ok (constraint.dependency? owner))
        .error) := by
  rw [checkConstraint, FuzzyClass.checkVariables_eq]
  cases hname : constraint.ownVariables.find? (· ∉ owner.vars) with
  | some name =>
    rw [violation?_of_ownVariable hname]
    rfl
  | none =>
    have hown : ∀ name ∈ constraint.ownVariables, name ∈ owner.vars := by
      simpa using List.find?_eq_none.1 hname
    rw [Constraint.dependency?]
    cases htarget : constraint.target? with
    | none =>
      rw [violation?_of_no_target hown htarget]
      rfl
    | some target =>
      change (some <$> registry.checkRelation owner target constraint.targetVariables).run = _
      by_cases hregistered : target ∈ registry.names
      · obtain ⟨scope, hscope, rfl⟩ := hwf.mem_names_iff.1 hregistered
        rw [ExceptT.run_map, hwf.checkRelation_eq owner hscope,
          violation?_of_targetVariables hown hwf hscope htarget]
        cases constraint.targetVariables.find? (· ∉ scope.vars) <;> rfl
      · rw [violation?_of_targetClass hown htarget hregistered, checkRelation,
          find?_eq_none_iff.2 hregistered]
        rfl

theorem sweepClass_finds (policy : Policy) {id : ClassId} {owner : FuzzyClass}
    (hget : registry.get? id = some owner) :
    policy.Finds (registry.sweepClass policy id)
      (owner.constraints.toList.filterMap (registry.violation? owner)) owner.dependencies := by
  rw [sweepClass, bind_of_eq_ok (fetch_eq_ok_iff.2 hget), FuzzyClass.dependencies,
    List.filterMap_eq_flatMap_toList, List.filterMap_eq_flatMap_toList]
  refine Policy.collect_finds fun constraint _ => ?_
  rw [hwf.checkConstraint_eq, Except.map_ok]
  refine ⟨_, rfl, ?_⟩
  cases registry.violation? owner constraint with
  | none => exact ⟨by cases policy <;> rfl, fun _ => rfl⟩
  | some violation => exact ⟨by cases policy <;> rfl, fun hnone => by cases hnone⟩

/-- What a sweep finds. -/
theorem sweep_finds (policy : Policy) :
    policy.Finds (registry.sweep policy) registry.violations
      (registry.toList.flatMap FuzzyClass.dependencies) := by
  rw [sweep, hwf.ids_eq, ← map_fst_placed, Policy.collect_map, violations_eq_flatMap,
    ← map_snd_placed, List.flatMap_map, List.flatMap_map]
  exact Policy.collect_finds fun entry hentry =>
    hwf.sweepClass_finds policy (mem_placed_iff.1 hentry)

end Registry.WellFormed

end FuzzyHierarchy
