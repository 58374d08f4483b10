import FuzzyHierarchy.Proofs.Classifier.EvaluationOrder
import FuzzyHierarchy.Proofs.Classifier.Reporting
import FuzzyHierarchy.Proofs.Graph.History

/-
Finalizing meets no fault, whatever was registered or refused before. Where it gives a classifier,
the schedule comes from one search of the links between the classes, in which every class is
discovered once and every link is examined once.
-/

namespace FuzzyHierarchy

namespace Blueprint

variable {blueprint : Blueprint} {classifier : Classifier}

/-- The schedule of a finalized classifier is that of its registry and its dependencies. -/
theorem schedule_of_finalize (hfinalize : blueprint.finalize = .ok (.ok classifier)) :
    classifier.toRegistry = blueprint.registry ∧
      blueprint.registry.schedule classifier.dependencies = .ok classifier.schedule := by
  obtain ⟨findings, -, hfinalize⟩ := exists_of_bind_eq_ok hfinalize
  split at hfinalize
  · cases hfinalize
  · cases hfound : Classifier.ofRegistry blueprint.registry findings.dependencies with
    | error fault => simp [hfound] at hfinalize
    | ok found =>
      have hsame : found = classifier := by simpa [hfound] using hfinalize
      subst hsame
      obtain ⟨schedule, hschedule, hmade⟩ := exists_of_bind_eq_ok hfound
      cases hmade
      exact ⟨rfl, hschedule⟩

/-- A finalized classifier is scheduled by a search of the links. -/
theorem exists_search_of_finalize (h : blueprint.registry.WellFormed)
    (hfinalize : blueprint.finalize = .ok (.ok classifier)) :
    blueprint.registry.dependencyGraph classifier.dependencies = .ok blueprint.registry.linkGraph ∧
      ∃ s, blueprint.registry.linkGraph.search = .ok s ∧ classifier.schedule =
        { order := s.order.toList.map .entry, cyclic := s.cyclic.toList.map .entry } := by
  obtain ⟨_, -, hclassifier⟩ := exists_solved_of_finalize h hfinalize
  have hdependencies : classifier.dependencies =
      blueprint.registry.toList.flatMap FuzzyClass.dependencies := by rw [hclassifier]
  have hconsistent := consistent_of_finalize h hfinalize
  obtain ⟨s, hsearch, -, hschedule⟩ := h.schedule_eq_ok hconsistent
  rw [← hdependencies, (schedule_of_finalize hfinalize).2] at hschedule
  exact ⟨hdependencies ▸ h.dependencyGraph_eq_ok hconsistent, s, hsearch,
    Except.ok.inj hschedule⟩

/-- Finalizing answers without a fault. The search behind every classifier that it gives discovers
each class once, and examines each entry of each successor list once. -/
theorem finalize_meets_no_fault (hreachable : blueprint.Reachable) :
    (∃ answer, blueprint.finalize = .ok answer) ∧
    (∀ report, ∃ answer, blueprint.finalizeReporting report = .ok answer) ∧
    ∀ classifier, (blueprint.finalize = .ok (.ok classifier) ∨
        ∃ report later, blueprint.finalizeReporting report = .ok (some classifier, later)) →
      blueprint.registry.dependencyGraph classifier.dependencies =
        .ok blueprint.registry.linkGraph ∧
      ∃ s, blueprint.registry.linkGraph.search = .ok s ∧
        classifier.schedule =
          { order := s.order.toList.map .entry, cyclic := s.cyclic.toList.map .entry } ∧
        (∃ log, Search.History blueprint.registry.linkGraph log s) ∧
        ∀ log, Search.History blueprint.registry.linkGraph log s →
          (∀ node, log.count (.discover node) = if node < blueprint.registry.size then 1 else 0) ∧
          ∀ node position successor, log.count (.examine node position successor) =
            if (blueprint.registry.linkGraph.next node)[position]? = some successor
              then 1 else 0 := by
  have h := hreachable.wellFormed
  refine ⟨?_, fun report => ?_, fun classifier hgiven => ?_⟩
  · cases hviolations : blueprint.registry.violations with
    | nil =>
      obtain ⟨classifier, hfinalize⟩ := (exists_finalize_iff_violations h).2 hviolations
      exact ⟨_, hfinalize⟩
    | cons first others =>
      exact ⟨_, (finalize_eq_error_iff h).2 (by rw [hviolations, List.head?_cons])⟩
  · obtain ⟨classifier?, later, hreporting, -⟩ := exists_finalizeReporting h report
    exact ⟨_, hreporting⟩
  · have hfinalize : blueprint.finalize = .ok (.ok classifier) := by
      rcases hgiven with hfinalize | ⟨report, later, hreporting⟩
      · exact hfinalize
      · obtain ⟨classifier?, _, hsame, -, -, hiff⟩ := exists_finalizeReporting h report
        rw [hreporting] at hsame
        cases hsame
        exact (hiff classifier).1 rfl
    obtain ⟨hgraph, s, hsearch, hschedule⟩ := exists_search_of_finalize h hfinalize
    have hclosed := h.closed_linkGraph
    obtain ⟨log, hhistory, -⟩ := Search.History.search hclosed hsearch
    refine ⟨hgraph, s, hsearch, hschedule, ⟨log, hhistory⟩, fun log hlog => ⟨fun node => ?_,
      fun _ _ _ => hlog.count_examine_eq hclosed hsearch⟩⟩
    rw [h.size_eq, ← Registry.size_linkGraph]
    exact hlog.count_discover_eq hclosed hsearch

/-- The link of the club to the group is examined once, and the club has no other one. -/
theorem finalize_meets_no_fault_people :
    ∃ classifier s, people.finalize = .ok (.ok classifier) ∧
      people.registry.linkGraph.search = .ok s ∧
      ∀ log, Search.History people.registry.linkGraph log s →
        log.count (.discover 2) = 1 ∧ log.count (.examine 2 0 1) = 1 ∧
          ∀ successor, log.count (.examine 2 1 successor) = 0 := by
  obtain ⟨classifier, hfinalize⟩ := exists_finalize_people
  obtain ⟨-, -, hgiven⟩ := finalize_meets_no_fault reachable_people
  obtain ⟨-, s, hsearch, -, -, honce⟩ := hgiven classifier (.inl hfinalize)
  have hsize : people.registry.size = 3 := by decide +kernel
  have hnext : people.registry.linkGraph.next 2 = [1] := by decide +kernel
  refine ⟨classifier, s, hfinalize, hsearch, fun log hlog => ?_⟩
  obtain ⟨hdiscover, hexamine⟩ := honce log hlog
  exact ⟨by simp [hdiscover, hsize], by simp [hexamine, hnext], by simp [hexamine, hnext]⟩

end Blueprint

end FuzzyHierarchy
