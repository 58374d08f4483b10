import FuzzyHierarchy.Proofs.Classifier.Reporting
import FuzzyHierarchy.Proofs.Registry.Refusal

/-
The errors that finalizing answers with and reports. Each of them is what the sweep refuses one
constraint with, whatever the policy, so it names the first reference of this constraint that does
not resolve, and it has one of two causes: an undeclared variable or an undeclared class.
-/

namespace FuzzyHierarchy

namespace Blueprint

variable {blueprint : Blueprint} {violation : DeclarationError}

/-- Finalizing answers with the error, or adds it to some report under some policy. -/
def Produces (blueprint : Blueprint) (violation : DeclarationError) : Prop :=
  blueprint.finalize = .ok (.error violation) ∨
    ∃ policy report classifier? later,
      (blueprint.withPolicy policy).finalizeReporting report = .ok (classifier?, later) ∧
        ∃ diagnostic ∈ later.toList.drop report.toList.length, diagnostic.source? = some violation

theorem Produces.mem_violations (h : blueprint.Produces violation)
    (hwf : blueprint.registry.WellFormed) : violation ∈ blueprint.registry.violations := by
  obtain hanswer | ⟨policy, report, classifier?, later, hreporting, diagnostic, hmem, hsource⟩ := h
  · exact List.mem_of_head? ((finalize_eq_error_iff hwf).1 hanswer)
  · have hpolicy : (blueprint.withPolicy policy).registry.WellFormed := hwf
    obtain ⟨_, _, hsame, hlater, -⟩ := exists_finalizeReporting hpolicy report
    cases hreporting.symm.trans hsame
    rw [hlater, List.drop_left, List.mem_map] at hmem
    obtain ⟨reported, hreported, rfl⟩ := hmem
    cases hsource
    exact Policy.reported_sublist.subset hreported

/-! ## The main statement, with inherited variables as an example -/

/-- A constraint is refused with its first reference that does not resolve. The sweep finds one such
error for each constraint that is refused, and finalizing produces no others, so none with another
cause. A constraint that uses an inherited variable is always refused. -/
theorem sweep_names_first_unresolved (hreachable : blueprint.Reachable) :
    ∃ findings, blueprint.registry.sweep .collectAll = .ok findings ∧
    (∀ owner constraint violation,
      blueprint.registry.checkConstraint owner constraint = .ok (.error violation) ↔
        blueprint.registry.Refusal owner constraint violation) ∧
    List.Forall₂ (fun obligation violation =>
        blueprint.registry.Refusal obligation.1 obligation.2 violation)
      (blueprint.registry.obligations.filter fun obligation =>
        blueprint.registry.refuses obligation.1 obligation.2)
      findings.violations ∧
    (∀ policy, ∃ found, blueprint.registry.sweep policy = .ok found ∧
      found.violations = policy.reported findings.violations) ∧
    (∀ violation, blueprint.Produces violation →
      violation ∈ findings.violations ∧
        ((∃ scope name owner, violation = .undeclaredVariable scope name owner) ∨
          ∃ owner target, violation = .undeclaredClass owner target)) ∧
    ∀ id owner constraint, blueprint.registry.get? id = some owner →
      blueprint.registry.UsesInherited id constraint →
        ∃ violation, blueprint.registry.Refusal owner constraint violation := by
  have hwf := hreachable.wellFormed
  obtain ⟨findings, hsweep, hall, -⟩ := hwf.sweep_finds .collectAll
  have hall : findings.violations = blueprint.registry.violations := hall
  refine ⟨findings, hsweep, fun _ _ _ => Registry.checkConstraint_eq_error_iff hwf, ?_,
    fun policy => ?_, fun violation hproduces => ?_, fun id owner constraint hget hinherited => ?_⟩
  · rw [hall]
    exact Registry.forall₂_refusal hwf
  · obtain ⟨found, hfound, hreported, -⟩ := hwf.sweep_finds policy
    exact ⟨found, hfound, by rw [hreported, hall]⟩
  · have hmem := hproduces.mem_violations hwf
    refine ⟨hall ▸ hmem, ?_⟩
    obtain ⟨⟨owner, constraint⟩, -, hviolation⟩ := List.mem_filterMap.1 hmem
    have hrefusal := (Registry.violation?_eq_some_iff hwf).1 hviolation
    exact hrefusal.eq_undeclared.imp (fun ⟨scope, name, h⟩ => ⟨scope, name, _, h⟩)
      fun ⟨target, h⟩ => ⟨_, target, h⟩
  · exact hinherited.exists_refusal hwf hget

/-- A pupil has the age of a person, and so has a teacher, but neither declares it. Of what is wrong
with a constraint only the first thing is said: the second constraint misses a class as well. -/
def pupils : Blueprint :=
  let person : Registration := { name := "Person", vars := ⟨["age"], List.nodup_singleton _⟩ }
  let pupil : Registration := {
    name := "Pupil"
    superclass? := some "Person"
    vars := ⟨["grade"], List.nodup_singleton _⟩
    constraints := ⟨[.simpleFeature "grade" "good",
      .complexRelation "School" "size" "grade" "age" "good",
      .simpleRelation "School" "size" "grade" "good",
      .inverseRelation "grade" "Pupil" "grade" "age" "good",
      .simpleRelation "Teacher" "age" "grade" "good"]⟩ }
  let teacher : Registration := { name := "Teacher", superclass? := some "Person" }
  ((({} : Blueprint).tryRegister person).tryRegister pupil).tryRegister teacher

theorem sweep_names_first_unresolved_pupils :
    (∃ findings, pupils.registry.sweep .collectAll = .ok findings ∧ findings.violations =
        [.undeclaredVariable "Pupil" "age" "Pupil", .undeclaredClass "Pupil" "School",
          .undeclaredVariable "Pupil" "age" "Pupil", .undeclaredVariable "Teacher" "age" "Pupil"]) ∧
      (∃ found, pupils.registry.sweep .failFast = .ok found ∧ found.violations =
        [.undeclaredVariable "Pupil" "age" "Pupil"]) ∧
      ∃ pupil, pupils.registry.get? (.entry 1) = some pupil ∧
        pupils.registry.Refusal pupil (.complexRelation "School" "size" "grade" "age" "good")
          (.undeclaredVariable "Pupil" "age" "Pupil") ∧
        pupils.registry.UsesInherited (.entry 1) (.simpleRelation "Teacher" "age" "grade" "good") ∧
        ∃ violation, pupils.registry.Refusal pupil
          (.simpleRelation "Teacher" "age" "grade" "good") violation := by
  have hreachable : pupils.Reachable := .tryRegister _ (.tryRegister _ (.tryRegister _ (.start _)))
  obtain ⟨findings, hsweep, hrefusal, -, hreported, -, hinherited⟩ :=
    sweep_names_first_unresolved hreachable
  have hall : findings.violations =
      [.undeclaredVariable "Pupil" "age" "Pupil", .undeclaredClass "Pupil" "School",
        .undeclaredVariable "Pupil" "age" "Pupil",
        .undeclaredVariable "Teacher" "age" "Pupil"] := by
    have hread : (pupils.registry.sweep .collectAll).map (·.violations) = .ok
        [.undeclaredVariable "Pupil" "age" "Pupil", .undeclaredClass "Pupil" "School",
          .undeclaredVariable "Pupil" "age" "Pupil",
          .undeclaredVariable "Teacher" "age" "Pupil"] := by
      decide +kernel
    rw [hsweep] at hread
    exact Except.ok.inj hread
  obtain ⟨pupil, hpupil, hcheck⟩ := Option.map_eq_some_iff.1
    (show (pupils.registry.get? (.entry 1)).map (pupils.registry.checkConstraint ·
        (.complexRelation "School" "size" "grade" "age" "good")) =
      some (.ok (.error (.undeclaredVariable "Pupil" "age" "Pupil"))) by decide +kernel)
  obtain ⟨teacher, hteacher, hfree⟩ := Option.map_eq_some_iff.1
    (show (pupils.registry.get? (.entry 2)).map (decide <| "age" ∈ ·.vars) = some false by
      decide +kernel)
  obtain ⟨person, hperson, hage⟩ := Option.map_eq_some_iff.1
    (show (pupils.registry.get? (.entry 0)).map (decide <| "age" ∈ ·.vars) = some true by
      decide +kernel)
  have huses : pupils.registry.UsesInherited (.entry 1)
      (.simpleRelation "Teacher" "age" "grade" "good") :=
    .inr ⟨"Teacher", .entry 2, rfl, by decide +kernel, "age", List.mem_singleton_self _, teacher,
      [.entry 0], .entry 0, person, hteacher, of_decide_eq_false hfree, by decide +kernel,
      List.mem_singleton_self _, hperson, of_decide_eq_true hage⟩
  refine ⟨⟨findings, hsweep, hall⟩, ?_, pupil, hpupil, (hrefusal _ _ _).1 hcheck, huses, ?_⟩
  · obtain ⟨found, hfound, hfirst⟩ := hreported .failFast
    exact ⟨found, hfound, by rw [hfirst, hall]; rfl⟩
  · exact hinherited (.entry 1) pupil _ hpupil huses

end Blueprint

end FuzzyHierarchy
