import FuzzyHierarchy.Proofs.Classifier.EvaluationOrder
import FuzzyHierarchy.Proofs.Classifier.Reporting
import FuzzyHierarchy.Proofs.Declaration.Acceptance
import FuzzyHierarchy.Proofs.Registry.Rearrangement

/-
Declaring the same classes in another order. As long as every superclass comes first in both orders,
the registries hold the same registrations, and everything that is told by names is the same.

Main statement: both orders give a classifier or neither does, they report the same violations up to
their order, and the two classifiers answer alike about every name.
-/

namespace FuzzyHierarchy

/-- What a declaration registers. -/
def Declaration.Registers (declaration : Declaration) (registration : Registration) : Prop :=
  ∃ asked, declaration.registration = .ok asked ∧ asked.canonical = registration

theorem Declaration.rightUnique_registers : Relator.RightUnique Declaration.Registers := by
  rintro declaration _ _ ⟨asked, hasked, rfl⟩ ⟨asked', hasked', rfl⟩
  cases hasked.symm.trans hasked'
  rfl

namespace Blueprint

/-! ## Registries of rearranged declarations -/

section Registering

variable {settings settings' : Settings} {blueprint next a b : Blueprint} {ds es : List Declaration}

theorem registrations_declareAll (hreachable : blueprint.Reachable)
    (h : blueprint.declareAll ds = .ok next) :
    ∃ registrations, List.Forall₂ Declaration.Registers ds registrations ∧
      next.registry.registrations = blueprint.registry.registrations ++ registrations := by
  induction ds generalizing blueprint with
  | nil =>
    cases h
    exact ⟨[], .nil, (List.append_nil _).symm⟩
  | cons declaration ds ih =>
    obtain ⟨id, middle, hdeclare, hrest⟩ := InPlace.all_cons_eq_ok_iff.1 h
    obtain ⟨registrations, hregisters, hnext⟩ := ih (hreachable.declare hdeclare) hrest
    obtain ⟨asked, hasked, hregister⟩ := exists_registration_of_declare hdeclare
    obtain ⟨registry, hadded, rfl⟩ := register_eq_ok_iff.1 hregister
    refine ⟨asked.canonical :: registrations, .cons ⟨asked, hasked, rfl⟩ hregisters, ?_⟩
    rw [hnext, hreachable.wellFormed.registrations_register hadded, List.append_assoc,
      List.singleton_append]

theorem forall₂_registers (h : declareAll { settings } ds = .ok next) :
    List.Forall₂ Declaration.Registers ds next.registry.registrations := by
  obtain ⟨registrations, hregisters, hnext⟩ := registrations_declareAll (.start settings) h
  rw [hnext]
  exact hregisters

/-- Declarations in another order register the same, in that order. -/
theorem rearranges_of_perm (hperm : ds.Perm es) (ha : declareAll { settings } ds = .ok a)
    (hb : declareAll { settings := settings' } es = .ok b) : a.registry.Rearranges b.registry :=
  List.rel_perm_imp Declaration.rightUnique_registers (forall₂_registers ha) (forall₂_registers hb)
    hperm

end Registering

/-! ## Classifiers of rearranged registries -/

section Finalizing

variable {a b : Blueprint} {c d : Classifier} (hrearranges : a.registry.Rearranges b.registry)
  (ha : a.Reachable) (hb : b.Reachable)

include hrearranges ha hb

theorem finalize_both_or_neither :
    ((∃ c, a.finalize = .ok (.ok c)) ∧ ∃ d, b.finalize = .ok (.ok d)) ∨
      (∃ e, a.finalize = .ok (.error e)) ∧ ∃ e, b.finalize = .ok (.error e) := by
  have hperm := hrearranges.violations_perm ha.wellFormed hb.wellFormed
  cases hviolations : a.registry.violations with
  | nil =>
    have hviolations' := (hviolations ▸ hperm).nil_eq.symm
    exact .inl ⟨(exists_finalize_iff_violations ha.wellFormed).2 hviolations,
      (exists_finalize_iff_violations hb.wellFormed).2 hviolations'⟩
  | cons first others =>
    refine .inr ⟨⟨first, (finalize_eq_error_iff ha.wellFormed).2 (by rw [hviolations]; rfl)⟩, ?_⟩
    cases hviolations' : b.registry.violations with
    | nil =>
      rw [hviolations, hviolations'] at hperm
      exact absurd hperm.eq_nil (List.cons_ne_nil _ _)
    | cons first' others' =>
      exact ⟨first', (finalize_eq_error_iff hb.wellFormed).2 (by rw [hviolations']; rfl)⟩

theorem reports_perm (report : Report) :
    ∃ answer later answer' later', ∃ violations violations' : List DeclarationError,
      (a.withPolicy .collectAll).finalizeReporting report = .ok (answer, later) ∧
      (b.withPolicy .collectAll).finalizeReporting report = .ok (answer', later') ∧
      later.toList = report.toList ++ violations.map .ofViolation ∧
      later'.toList = report.toList ++ violations'.map .ofViolation ∧
      violations.Perm violations' := by
  have hwf : (a.withPolicy .collectAll).registry.WellFormed := ha.wellFormed
  have hwf' : (b.withPolicy .collectAll).registry.WellFormed := hb.wellFormed
  obtain ⟨answer, later, hreporting, hlater, -⟩ := exists_finalizeReporting hwf report
  obtain ⟨answer', later', hreporting', hlater', -⟩ := exists_finalizeReporting hwf' report
  exact ⟨answer, later, answer', later', _, _, hreporting, hreporting', hlater, hlater',
    hrearranges.violations_perm ha.wellFormed hb.wellFormed⟩

theorem dependencies_perm (hc : a.finalize = .ok (.ok c)) (hd : b.finalize = .ok (.ok d)) :
    c.dependencies.Perm d.dependencies ∧
      ∀ name, c.dependenciesOf name = d.dependenciesOf name := by
  obtain ⟨s, -, rfl⟩ := exists_solved_of_finalize ha.wellFormed hc
  obtain ⟨s', -, rfl⟩ := exists_solved_of_finalize hb.wellFormed hd
  exact ⟨hrearranges.dependencies_perm, hrearranges.filter_owner_eq ha.wellFormed
    hb.wellFormed⟩

theorem isCyclic_eq (hc : a.finalize = .ok (.ok c)) (hd : b.finalize = .ok (.ok d))
    (name : String) :
    c.isCyclic name = d.isCyclic name := by
  obtain ⟨hregistry, hscheduled⟩ := ha.scheduled hc
  obtain ⟨hregistry', hscheduled'⟩ := hb.scheduled hd
  have hnames : name ∈ a.registry.names ↔ name ∈ b.registry.names :=
    hrearranges.mem_names_iff ha.wellFormed hb.wellFormed
  rw [Classifier.isCyclic, Classifier.isCyclic, hregistry, hregistry']
  by_cases hname : name ∈ a.registry.names
  · obtain ⟨i, hi⟩ := Registry.exists_idOf?_of_mem_names hname
    obtain ⟨j, hj⟩ := Registry.exists_idOf?_of_mem_names (hnames.1 hname)
    rw [hi, hj, Bool.eq_iff_iff]
    simp only [Schedule.isCyclic, List.contains_iff_mem, hscheduled.mem_cyclic,
      hscheduled'.mem_cyclic]
    exact hrearranges.leadsBack_iff ha.wellFormed hb.wellFormed hi hj
  · rw [Registry.idOf?_eq_none_iff.2 hname,
      Registry.idOf?_eq_none_iff.2 (mt hnames.2 hname)]

end Finalizing

variable {settings : Settings} {ds es : List Declaration} {a b : Blueprint}

/-- Rearranged declarations give a classifier or not alike, report the same violations, and the
classifiers that they give answer alike about every name. -/
theorem finalize_perm (hperm : ds.Perm es) (ha : declareAll { settings } ds = .ok a)
    (hb : declareAll { settings } es = .ok b) :
    (((∃ c, a.finalize = .ok (.ok c)) ∧ ∃ d, b.finalize = .ok (.ok d)) ∨
      (∃ e, a.finalize = .ok (.error e)) ∧ ∃ e, b.finalize = .ok (.error e)) ∧
    (∀ report, ∃ answer later answer' later', ∃ violations violations' : List DeclarationError,
      (a.withPolicy .collectAll).finalizeReporting report = .ok (answer, later) ∧
      (b.withPolicy .collectAll).finalizeReporting report = .ok (answer', later') ∧
      later.toList = report.toList ++ violations.map .ofViolation ∧
      later'.toList = report.toList ++ violations'.map .ofViolation ∧
      violations.Perm violations') ∧
    ∀ c d, a.finalize = .ok (.ok c) → b.finalize = .ok (.ok d) →
      c.dependencies.Perm d.dependencies ∧
      (∀ name, c.dependenciesOf name = d.dependenciesOf name ∧
        c.isCyclic name = d.isCyclic name) ∧
      ∀ name ∈ ds.map (·.name), ∃ i j, c.idOf? name = some i ∧ d.idOf? name = some j ∧
        Registry.AlikeAt c.toRegistry d.toRegistry i j := by
  have hrearranges := rearranges_of_perm hperm ha hb
  obtain ⟨hreachable, hdeclares⟩ := declareAll_start_eq_ok ha
  obtain ⟨hreachable', -⟩ := declareAll_start_eq_ok hb
  refine ⟨finalize_both_or_neither hrearranges hreachable hreachable',
    reports_perm hrearranges hreachable hreachable', fun c d hc hd => ?_⟩
  obtain ⟨hdependencies, hof⟩ := dependencies_perm hrearranges hreachable hreachable' hc hd
  refine ⟨hdependencies, fun name =>
    ⟨hof name, isCyclic_eq hrearranges hreachable hreachable' hc hd name⟩, fun name hname => ?_⟩
  rw [← Declaration.names_eq hdeclares hreachable.wellFormed] at hname
  rw [(hreachable.scheduled hc).1, (hreachable'.scheduled hd).1]
  obtain ⟨i, hi⟩ := Registry.exists_idOf?_of_mem_names hname
  obtain ⟨j, hj⟩ := Registry.exists_idOf?_of_mem_names
    ((hrearranges.mem_names_iff hreachable.wellFormed hreachable'.wellFormed).1 hname)
  exact ⟨i, j, hi, hj, hrearranges.alikeAt hreachable.wellFormed hreachable'.wellFormed hi hj⟩

/-- A person refers to a town. -/
def personDeclared : Declaration :=
  { name := "Person", vars := ["age"], consts := [("adult", "18")],
    constraints := [(.simpleRelation, ["Town", "rent", "age", "old"])] }

/-- A town refers to a person. -/
def townDeclared : Declaration :=
  { name := "Town", vars := ["rent"],
    constraints := [(.simpleRelation, ["Person", "age", "rent", "high"])] }

/-- A mayor is a person. -/
def mayorDeclared : Declaration := { name := "Mayor", superclass? := some "Person" }

/-- The town can be declared before the person as well as after it. -/
theorem finalize_perm_townDeclared :
    ∃ a b c d, declareAll {} [personDeclared, townDeclared, mayorDeclared] = .ok a ∧
      declareAll {} [townDeclared, personDeclared, mayorDeclared] = .ok b ∧
      a.finalize = .ok (.ok c) ∧ b.finalize = .ok (.ok d) ∧
      c.dependencies.Perm d.dependencies ∧ c.isCyclic "Person" = d.isCyclic "Person" ∧
      ∃ i j, c.idOf? "Mayor" = some i ∧ d.idOf? "Mayor" = some j ∧
        Registry.AlikeAt c.toRegistry d.toRegistry i j := by
  obtain ⟨a, c, ha, hc, -⟩ := exists_classifier_of_map
    (show (declareAll {} [personDeclared, townDeclared, mayorDeclared]).map (fun blueprint =>
      blueprint.finalize.map (·.map (·.size))) = .ok (.ok (.ok 3)) by decide +kernel)
  obtain ⟨b, d, hb, hd, -⟩ := exists_classifier_of_map
    (show (declareAll {} [townDeclared, personDeclared, mayorDeclared]).map (fun blueprint =>
      blueprint.finalize.map (·.map (·.size))) = .ok (.ok (.ok 3)) by decide +kernel)
  obtain ⟨-, -, hclassifiers⟩ := finalize_perm (.swap townDeclared personDeclared _) ha hb
  obtain ⟨hdependencies, hnames, halike⟩ := hclassifiers c d hc hd
  exact ⟨a, b, c, d, ha, hb, hc, hd, hdependencies, (hnames "Person").2,
    halike "Mayor" (by decide)⟩

end Blueprint

end FuzzyHierarchy
