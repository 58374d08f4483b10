import FuzzyHierarchy.Proofs.Classifier.EvaluationOrder
import FuzzyHierarchy.Proofs.Classifier.Reporting

/-
The classifiers that finalizing gives, told without the blueprint that they come from. Their
registries are well-formed and consistent, and all else that they hold is made of the registry, so
there is one finalized classifier for each such registry.
-/

namespace FuzzyHierarchy

namespace Classifier

/-- The classifiers that finalizing gives, for an answer or with a report. -/
def Finalized (classifier : Classifier) : Prop :=
  ∃ blueprint : Blueprint, blueprint.Reachable ∧
    (blueprint.finalize = .ok (.ok classifier) ∨
      ∃ report later, blueprint.finalizeReporting report = .ok (some classifier, later))

variable {a b : Classifier}

theorem Finalized.exists_finalize (h : a.Finalized) :
    ∃ blueprint : Blueprint, blueprint.Reachable ∧ blueprint.finalize = .ok (.ok a) := by
  obtain ⟨blueprint, hreachable, hfinalize | ⟨report, later, hreporting⟩⟩ := h
  · exact ⟨blueprint, hreachable, hfinalize⟩
  · refine ⟨blueprint, hreachable, ?_⟩
    exact Blueprint.finalize_of_finalizeReporting hreachable.wellFormed hreporting

/-- A finalized classifier is the answer for its own registry, whatever the settings were. -/
theorem Finalized.finalize_eq (h : a.Finalized) :
    ({ registry := a.toRegistry } : Blueprint).finalize = .ok (.ok a) := by
  obtain ⟨blueprint, hreachable, hfinalize⟩ := h.exists_finalize
  obtain ⟨hregistry, -⟩ := hreachable.scheduled hfinalize
  rw [← hfinalize, hregistry]
  rfl

theorem Finalized.wellFormed (h : a.Finalized) : a.WellFormed := by
  obtain ⟨blueprint, hreachable, hfinalize⟩ := h.exists_finalize
  obtain ⟨hregistry, -⟩ := hreachable.scheduled hfinalize
  exact hregistry ▸ hreachable.wellFormed

theorem Finalized.consistent (h : a.Finalized) : a.Consistent :=
  Blueprint.consistent_of_finalize h.wellFormed h.finalize_eq

theorem Finalized.scheduled (h : a.Finalized) : a.Scheduled a.schedule := by
  obtain ⟨blueprint, hreachable, hfinalize⟩ := h.exists_finalize
  obtain ⟨hregistry, hscheduled⟩ := hreachable.scheduled hfinalize
  exact hregistry ▸ hscheduled

/-- The dependencies and the schedule of a finalized classifier are made of its registry. -/
theorem Finalized.exists_solved (h : a.Finalized) :
    ∃ s, a.linkGraph.Solved s ∧
      a = {
        a.toRegistry with
        dependencies := a.toList.flatMap FuzzyClass.dependencies
        schedule := {
          order := s.order.toList.map .entry
          cyclic := s.cyclic.toList.map .entry } } := by
  have hwf : ({ registry := a.toRegistry } : Blueprint).registry.WellFormed := h.wellFormed
  obtain ⟨s, hsolved, hsame⟩ := Blueprint.exists_solved_of_finalize hwf h.finalize_eq
  exact ⟨s, hsolved, hsame⟩

/-- Finalized classifiers with one registry are one classifier. -/
theorem Finalized.eq_of_toRegistry_eq (ha : a.Finalized) (hb : b.Finalized)
    (h : a.toRegistry = b.toRegistry) : a = b := by
  have hsame := ha.finalize_eq
  rw [h, hb.finalize_eq] at hsame
  exact (Except.ok.inj (Except.ok.inj hsame)).symm

end Classifier

end FuzzyHierarchy
