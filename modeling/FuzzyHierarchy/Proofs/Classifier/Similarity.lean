import FuzzyHierarchy.Proofs.Classifier.Admission
import FuzzyHierarchy.Proofs.Classifier.Reporting
import FuzzyHierarchy.Proofs.Registry.Similarity

/-
What finalizing does not depend on. Registrations that differ at most in constants, hidden flags,
labels and the order of variables come to similar registries, and nothing that finalizing makes
tells these apart.

Main statement: similar registrations have the same violations, reported or answered, and the
classifiers that they come to have the same dependencies and the same schedule, and find every
variable in classes of the same name.
-/

namespace FuzzyHierarchy

namespace Blueprint

variable {a b : Blueprint} {xs ys : List Registration}

section Finalizing

variable (hsimilar : a.registry.Similar b.registry) (ha : a.registry.WellFormed)
  (hb : b.registry.WellFormed)

include hsimilar ha hb

theorem reports_same (policy : Policy) : ∃ violations : List DeclarationError, ∀ report report',
    ∃ answer later answer' later',
      (a.withPolicy policy).finalizeReporting report = .ok (answer, later) ∧
      (b.withPolicy policy).finalizeReporting report' = .ok (answer', later') ∧
      later.toList = report.toList ++ violations.map .ofViolation ∧
      later'.toList = report'.toList ++ violations.map .ofViolation ∧
      answer.isSome = answer'.isSome := by
  refine ⟨policy.reported a.registry.violations, fun report report' => ?_⟩
  have hwf : (a.withPolicy policy).registry.WellFormed := ha
  have hwf' : (b.withPolicy policy).registry.WellFormed := hb
  obtain ⟨answer, later, hreporting, hlater, hsome, -⟩ := exists_finalizeReporting hwf report
  obtain ⟨answer', later', hreporting', hlater', hsome', -⟩ := exists_finalizeReporting hwf' report'
  refine ⟨answer, later, answer', later', hreporting, hreporting', hlater, ?_, ?_⟩
  · rw [hsimilar.violations_eq ha hb]
    exact hlater'
  · rw [Bool.eq_iff_iff, hsome, hsome']
    exact iff_of_eq (congrArg (· = []) (hsimilar.violations_eq ha hb))

/-- Similar registries are searched alike. -/
theorem schedule_same {c d : Classifier} (hc : a.finalize = .ok (.ok c))
    (hd : b.finalize = .ok (.ok d)) :
    c.dependencies = d.dependencies ∧ c.schedule = d.schedule := by
  obtain ⟨s, hs, rfl⟩ := exists_solved_of_finalize ha hc
  obtain ⟨s', hs', rfl⟩ := exists_solved_of_finalize hb hd
  rw [← hsimilar.linkGraph_eq ha hb] at hs'
  refine ⟨hsimilar.dependencies_eq, ?_⟩
  simp only [hs.order, hs'.order, hs.cyclic, hs'.cyclic]

end Finalizing

/-! ## The main statement, with constants, labels and an order of variables as an example -/

variable {settings settings' : Settings}

/-- Similar registrations are finalized alike: the same violations are reported under each policy
and answered, and the classifiers have the same dependencies and the same schedule and find
variables in classes of the same name. -/
theorem finalize_similar (hcalls : List.Forall₂ (Registration.Corresponds ClassBody.Similar) xs ys)
    (ha : registerAll { settings } xs = .ok a)
    (hb : registerAll { settings := settings' } ys = .ok b) :
    (∀ policy, ∃ violations : List DeclarationError, ∀ report report',
      ∃ answer later answer' later',
        (a.withPolicy policy).finalizeReporting report = .ok (answer, later) ∧
        (b.withPolicy policy).finalizeReporting report' = .ok (answer', later') ∧
        later.toList = report.toList ++ violations.map .ofViolation ∧
        later'.toList = report'.toList ++ violations.map .ofViolation ∧
        answer.isSome = answer'.isSome) ∧
    (∀ violation, a.finalize = .ok (.error violation) ↔ b.finalize = .ok (.error violation)) ∧
    ((∃ c, a.finalize = .ok (.ok c)) ↔ ∃ d, b.finalize = .ok (.ok d)) ∧
    ∀ c d, a.finalize = .ok (.ok c) → b.finalize = .ok (.ok d) →
      c.dependencies = d.dependencies ∧ c.schedule = d.schedule ∧ c.names = d.names ∧
      ∀ id symbol, ∃ scope : Option String,
        (·.map (·.name)) <$> c.findVariable id symbol = .ok scope ∧
        (·.map (·.name)) <$> d.findVariable id symbol = .ok scope := by
  have hwf := wellFormed_of_registerAll ha
  have hwf' := wellFormed_of_registerAll hb
  have hsimilar : a.registry.Similar b.registry := by
    have hstart : ({ settings } : Blueprint).registry.Similar
        ({ settings := settings' } : Blueprint).registry := List.Forall₂.nil
    obtain ⟨last, hlast, hsimilar⟩ := exists_registerAll hcalls hstart .empty .empty ha
    cases hb.symm.trans hlast
    exact hsimilar
  refine ⟨reports_same hsimilar hwf hwf', fun violation => ?_, ?_, fun c d hc hd => ?_⟩
  · rw [finalize_eq_error_iff hwf, finalize_eq_error_iff hwf',
      hsimilar.violations_eq hwf hwf']
  · rw [exists_finalize_iff_violations hwf, exists_finalize_iff_violations hwf',
      hsimilar.violations_eq hwf hwf']
  · obtain ⟨hdependencies, hschedule⟩ := schedule_same hsimilar hwf hwf' hc hd
    obtain ⟨s, -, rfl⟩ := exists_solved_of_finalize hwf hc
    obtain ⟨s', -, rfl⟩ := exists_solved_of_finalize hwf' hd
    exact ⟨hdependencies, hschedule, hsimilar.names_eq hwf hwf',
      hsimilar.exists_findVariable hwf hwf'⟩

/-- A person of two measures who is taller than a giant. -/
def person : Registration :=
  { name := "Person"
    vars := ⟨["age", "height"], by decide⟩
    constraints :=
      ⟨[.simpleRelation "Giant" "size" "height" "taller", .simpleFeature "age" "old"]⟩ }

/-- The person with the measures the other way round, other labels and a constant, and hidden. -/
def personReworded : Registration :=
  { name := "Person"
    superclass? := some ""
    vars := ⟨["height", "age"], by decide⟩
    consts := ⟨[("adult", "18")], by decide⟩
    constraints := ⟨[.simpleRelation "Giant" "size" "height" "above", .simpleFeature "age" "young"]⟩
    hidden := true }

/-- A giant is a person. -/
def giant : Registration :=
  { name := "Giant", superclass? := some "Person", vars := ⟨["size"], List.nodup_singleton _⟩ }

theorem similar_personReworded : person.Corresponds ClassBody.Similar personReworded where
  name := rfl
  parent? := rfl
  body := ⟨fun name => by
    change name ∈ ["age", "height"] ↔ name ∈ ["height", "age"]
    exact (List.Perm.swap "height" "age" []).mem_iff, rfl⟩

theorem finalize_similar_personReworded :
    ∃ a b c d, registerAll {} [person, giant] = .ok a ∧
      registerAll { settings := ⟨.collectAll⟩ } [personReworded, giant] = .ok b ∧
      a.finalize = .ok (.ok c) ∧ b.finalize = .ok (.ok d) ∧ c.schedule = d.schedule ∧
      ∃ scope : Option String, (·.map (·.name)) <$> c.findVariable (.entry 1) "age" = .ok scope ∧
        (·.map (·.name)) <$> d.findVariable (.entry 1) "age" = .ok scope := by
  have hcalls : List.Forall₂ (Registration.Corresponds ClassBody.Similar)
      [person, giant] [personReworded, giant] :=
    .cons similar_personReworded (.cons ⟨rfl, rfl, fun _ => Iff.rfl, rfl⟩ .nil)
  obtain ⟨a, c, ha, hc, -⟩ := exists_classifier_of_map
    (show (registerAll {} [person, giant]).map (fun blueprint =>
      blueprint.finalize.map (·.map (·.size))) = .ok (.ok (.ok 2)) by decide +kernel)
  obtain ⟨b, d, hb, hd, -⟩ := exists_classifier_of_map
    (show (registerAll { settings := ⟨.collectAll⟩ } [personReworded, giant]).map (fun blueprint =>
      blueprint.finalize.map (·.map (·.size))) = .ok (.ok (.ok 2)) by decide +kernel)
  obtain ⟨-, -, -, hclassifiers⟩ := finalize_similar hcalls ha hb
  obtain ⟨-, hschedule, -, hscopes⟩ := hclassifiers c d hc hd
  exact ⟨a, b, c, d, ha, hb, hc, hd, hschedule, hscopes (.entry 1) "age"⟩

end Blueprint

end FuzzyHierarchy
