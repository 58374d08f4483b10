import FuzzyHierarchy.Proofs.Classifier.Finalization

/-
What finalizing reports. Finalizing with a report and finalizing for an answer are two uses of one
sweep: both give a classifier exactly when the registry has no violation, and then the same one,
whatever the policy and whatever the report held before.

Main statement: the report gains the violations at its end, all of them or the first under the
fail-fast policy, and the first violation is the one that finalizing answers with.
-/

namespace FuzzyHierarchy

/-- The diagnostic that reports a violation. -/
def Diagnostic.ofViolation (violation : DeclarationError) : Diagnostic where
  level := .error
  message := violation.message
  source? := some violation

namespace Blueprint

variable {blueprint : Blueprint} {classifier : Classifier} {violation : DeclarationError}

/-- The blueprint under a policy of its own. -/
def withPolicy (blueprint : Blueprint) (policy : Policy) : Blueprint :=
  { blueprint with settings := { blueprint.settings with policy } }

/-- Finalizing for an answer does not read the policy. -/
theorem finalize_withPolicy (blueprint : Blueprint) (policy : Policy) :
    (blueprint.withPolicy policy).finalize = blueprint.finalize := rfl

/-! ## Violations in a report -/

theorem reportViolation_eq_ok (report : Report) (violation : DeclarationError) :
    ∃ later, reportViolation report violation = .ok later ∧
      later.toList = report.toList ++ [.ofViolation violation] :=
  ⟨⟨report.diagnostics.push (.ofViolation violation)⟩, rfl, by simp [Report.toList]⟩

theorem foldlM_reportViolation_eq_ok (violations : List DeclarationError) (report : Report) :
    ∃ later, violations.foldlM reportViolation report = .ok later ∧
      later.toList = report.toList ++ violations.map .ofViolation := by
  induction violations generalizing report with
  | nil => exact ⟨report, rfl, by simp⟩
  | cons violation violations ih =>
    obtain ⟨middle, hfirst, hmiddle⟩ := reportViolation_eq_ok report violation
    obtain ⟨later, hrest, hlater⟩ := ih middle
    refine ⟨later, ?_, ?_⟩
    · rw [List.foldlM_cons, hfirst]
      exact hrest
    · rw [hlater, hmiddle, List.map_cons, List.append_assoc, List.singleton_append]

/-! ## Finalizing for an answer and with a report -/

theorem exists_finalize_iff_violations (h : blueprint.registry.WellFormed) :
    (∃ classifier, blueprint.finalize = .ok (.ok classifier)) ↔
      blueprint.registry.violations = [] :=
  (exists_finalize_iff h).trans Registry.violations_eq_nil_iff.symm

theorem finalize_eq_error_iff (h : blueprint.registry.WellFormed) :
    blueprint.finalize = .ok (.error violation) ↔
      blueprint.registry.violations.head? = some violation := by
  obtain ⟨findings, hsweep, hreported, -⟩ := h.sweep_finds .failFast
  cases hviolations : blueprint.registry.violations with
  | nil =>
    obtain ⟨classifier, hfinalize⟩ := (exists_finalize_iff_violations h).2 hviolations
    rw [hfinalize]
    simp
  | cons first others =>
    rw [hviolations] at hreported
    rw [finalize, bind_of_eq_ok hsweep, hreported]
    simp [Policy.reported, pure, Except.pure]

theorem exists_finalize_error_iff_violations (h : blueprint.registry.WellFormed) :
    (∃ violation, blueprint.finalize = .ok (.error violation)) ↔
      blueprint.registry.violations ≠ [] := by
  simp only [finalize_eq_error_iff h]
  cases blueprint.registry.violations with
  | nil => simp
  | cons first others => simp

/-- A registry with violations gives no classifier, and they are reported. -/
theorem finalizeReporting_of_violations (h : blueprint.registry.WellFormed)
    (hne : blueprint.registry.violations ≠ []) (report : Report) :
    ∃ later, blueprint.finalizeReporting report = .ok (none, later) ∧
      later.toList = report.toList ++
        (blueprint.settings.policy.reported blueprint.registry.violations).map .ofViolation := by
  obtain ⟨findings, hsweep, hreported, -⟩ := h.sweep_finds blueprint.settings.policy
  obtain ⟨later, hreport, hlater⟩ := foldlM_reportViolation_eq_ok
    (blueprint.settings.policy.reported blueprint.registry.violations) report
  refine ⟨later, ?_, hlater⟩
  rw [finalizeReporting, bind_of_eq_ok hsweep, hreported, bind_of_eq_ok hreport, if_neg]
  · rfl
  · rwa [List.isEmpty_iff, Policy.reported_eq_nil_iff]

/-- Without violations the classifier is the one that finalizing answers with. -/
theorem finalizeReporting_of_finalize (h : blueprint.registry.WellFormed)
    (hfinalize : blueprint.finalize = .ok (.ok classifier)) (report : Report) :
    blueprint.finalizeReporting report = .ok (some classifier, report) := by
  have hnone := (exists_finalize_iff_violations h).1 ⟨classifier, hfinalize⟩
  obtain ⟨findings, hsweep, hreported, hdependencies⟩ := h.sweep_finds .failFast
  obtain ⟨findings', hsweep', hreported', hdependencies'⟩ :=
    h.sweep_finds blueprint.settings.policy
  rw [Policy.reported_eq_nil_iff.2 hnone] at hreported hreported'
  -- the two sweeps find the same dependencies, so the two classifiers are made alike
  have hsame : findings.dependencies = findings'.dependencies :=
    (hdependencies hnone).trans (hdependencies' hnone).symm
  have hclassifier : Classifier.ofRegistry blueprint.registry findings'.dependencies =
      .ok classifier := by
    rw [finalize, bind_of_eq_ok hsweep, hreported, hsame] at hfinalize
    cases hmade : Classifier.ofRegistry blueprint.registry findings'.dependencies with
    | error fault => simp [hmade] at hfinalize
    | ok found => simpa [hmade] using hfinalize
  rw [finalizeReporting, bind_of_eq_ok hsweep', hreported']
  simp only [List.foldlM_nil, List.isEmpty_nil, if_true, bind_of_eq_ok hclassifier]
  rfl

/-- Finalizing with a report always comes to an end, with the classifier that finalizing answers
with, and the report gains the violations that the policy reports. -/
theorem exists_finalizeReporting (h : blueprint.registry.WellFormed) (report : Report) :
    ∃ classifier? later, blueprint.finalizeReporting report = .ok (classifier?, later) ∧
      later.toList = report.toList ++
        (blueprint.settings.policy.reported blueprint.registry.violations).map .ofViolation ∧
      (classifier?.isSome = true ↔ blueprint.registry.violations = []) ∧
      ∀ classifier, classifier? = some classifier ↔ blueprint.finalize = .ok (.ok classifier) := by
  by_cases hnone : blueprint.registry.violations = []
  · obtain ⟨classifier, hfinalize⟩ := (exists_finalize_iff_violations h).2 hnone
    refine ⟨some classifier, report, finalizeReporting_of_finalize h hfinalize report, ?_,
      by simp [hnone], fun other => ?_⟩
    · rw [Policy.reported_eq_nil_iff.2 hnone, List.map_nil, List.append_nil]
    · simp [hfinalize]
  · obtain ⟨later, hreporting, hlater⟩ := finalizeReporting_of_violations h hnone report
    refine ⟨none, later, hreporting, hlater, by simp [hnone], fun other => ?_⟩
    exact iff_of_false (by simp) fun hother =>
      hnone ((exists_finalize_iff_violations h).1 ⟨other, hother⟩)

theorem exists_finalizeReporting_none_iff_violations (h : blueprint.registry.WellFormed)
    (report : Report) :
    (∃ later, blueprint.finalizeReporting report = .ok (none, later)) ↔
      blueprint.registry.violations ≠ [] := by
  obtain ⟨classifier?, later, hreporting, -, hsome, -⟩ := exists_finalizeReporting h report
  rw [hreporting, ne_eq, ← hsome]
  cases classifier? with
  | none => simp
  | some classifier => simp

/-- The classifier that finalizing with a report gives is the one that finalizing answers with. -/
theorem finalize_of_finalizeReporting (h : blueprint.registry.WellFormed) {report later : Report}
    (hreporting : blueprint.finalizeReporting report = .ok (some classifier, later)) :
    blueprint.finalize = .ok (.ok classifier) := by
  obtain ⟨classifier?, _, hsame, -, -, hiff⟩ := exists_finalizeReporting h report
  rw [hreporting] at hsame
  cases hsame
  exact (hiff classifier).1 rfl

/-! ## The main statement, with two violations as an example -/

/-- There is one violation for each constraint with a reference that does not resolve. A report
gains those that the policy reports at its end, the first one is the answer of finalizing, and a
classifier is given, the same in every way, when there is none. -/
theorem finalizeReporting_reports_violations (hreachable : blueprint.Reachable) :
    List.Forall₂ (fun obligation violation =>
        blueprint.registry.violation? obligation.1 obligation.2 = some violation)
      (blueprint.registry.obligations.filter fun obligation =>
        ¬ ∀ reference ∈ obligation.2.references,
          blueprint.registry.Resolves obligation.1 reference)
      blueprint.registry.violations ∧
    (∀ violation, blueprint.finalize = .ok (.error violation) ↔
      blueprint.registry.violations.head? = some violation) ∧
    ((∃ classifier, blueprint.finalize = .ok (.ok classifier)) ↔
      blueprint.registry.violations = []) ∧
    ∀ policy report, ∃ classifier? later,
      (blueprint.withPolicy policy).finalizeReporting report = .ok (classifier?, later) ∧
      later.toList =
        report.toList ++ (policy.reported blueprint.registry.violations).map .ofViolation ∧
      (classifier?.isSome = true ↔ blueprint.registry.violations = []) ∧
      ∀ classifier, classifier? = some classifier ↔ blueprint.finalize = .ok (.ok classifier) := by
  have h := hreachable.wellFormed
  refine ⟨blueprint.registry.forall₂_violations, fun _ => finalize_eq_error_iff h,
    exists_finalize_iff_violations h, fun policy report => ?_⟩
  rw [← finalize_withPolicy blueprint policy]
  have hpolicy : (blueprint.withPolicy policy).registry.WellFormed := h
  exact exists_finalizeReporting hpolicy report

/-- A person of whom the height is not declared, and who refers to a group that is nowhere. -/
def strays : Blueprint :=
  let person : Registration := {
    name := "Person"
    vars := ⟨["age"], List.nodup_singleton _⟩
    constraints := ⟨[.simpleFeature "height" "tall", .simpleFeature "age" "old",
      .simpleRelation "Group" "size" "age" "old"]⟩ }
  ({} : Blueprint).tryRegister person

theorem violations_strays : strays.registry.violations =
    [.undeclaredVariable "Person" "height" "Person", .undeclaredClass "Person" "Group"] := by
  decide +kernel

theorem finalizeReporting_reports_violations_strays :
    ∃ later, (strays.withPolicy .collectAll).finalizeReporting
        ⟨#[{ level := .fatal, message := "out of room" }]⟩ = .ok (none, later) ∧
      later.toList = [{ level := .fatal, message := "out of room" },
        .ofViolation (.undeclaredVariable "Person" "height" "Person"),
        .ofViolation (.undeclaredClass "Person" "Group")] ∧
      strays.finalize = .ok (.error (.undeclaredVariable "Person" "height" "Person")) := by
  have hreachable : strays.Reachable := .tryRegister _ (.start _)
  obtain ⟨-, hanswer, -, hreporting⟩ := finalizeReporting_reports_violations hreachable
  obtain ⟨classifier?, later, hreport, hlater, hsome, -⟩ :=
    hreporting .collectAll ⟨#[{ level := .fatal, message := "out of room" }]⟩
  have hnone : classifier? = none := by
    rw [violations_strays] at hsome
    simpa using hsome
  subst hnone
  refine ⟨later, hreport, ?_, (hanswer _).2 (by rw [violations_strays]; rfl)⟩
  rw [hlater, violations_strays]
  rfl

end Blueprint

end FuzzyHierarchy
