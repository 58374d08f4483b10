import FuzzyHierarchy.Blueprint
import FuzzyHierarchy.Proofs.Registry.LinkGraph
import FuzzyHierarchy.Proofs.Registry.Sweep

/-
The blueprints that registrations lead to, and what finalizing one of them comes to: it succeeds
exactly when every reference resolves, and then the classifier keeps the registry, with the
dependencies of its classes and a schedule from a search of its links.
-/

namespace FuzzyHierarchy

namespace Blueprint

/-- What is left of the blueprint by a registration, whether it is accepted or refused. -/
def tryRegister (blueprint : Blueprint) (registration : Registration) : Blueprint :=
  ((register registration).effect blueprint).2

/-- The blueprints that registrations lead to, those that are refused included. -/
inductive Reachable : Blueprint → Prop
  | start (settings : Settings) : Reachable { settings }
  | tryRegister {blueprint : Blueprint} (registration : Registration) :
    Reachable blueprint → Reachable (blueprint.tryRegister registration)

variable {blueprint next last : Blueprint} {registration : Registration} {id : ClassId}
  {registrations : List Registration} {e : DeclarationError} {classifier : Classifier}

/-! ## Registering -/

theorem register_eq_ok_iff :
    (register registration).effect blueprint = (.ok id, next) ↔
      ∃ registry, (Registry.register registration).effect blueprint.registry = (.ok id, registry) ∧
        next = { blueprint with registry } := by
  rw [register, InPlace.effect_onPart, Prod.mk.injEq]
  constructor
  · rintro ⟨hanswer, rfl⟩
    exact ⟨_, Prod.ext hanswer rfl, rfl⟩
  · rintro ⟨registry, hregister, rfl⟩
    rw [hregister]
    exact ⟨rfl, rfl⟩

/-- A registration is refused where the registry refuses it, and the blueprint is left as it was. -/
theorem register_eq_error_iff :
    (register registration).effect blueprint = (.error e, next) ↔
      (Registry.register registration).effect blueprint.registry = (.error e, blueprint.registry) ∧
        next = blueprint := by
  rw [register, InPlace.effect_onPart, Prod.mk.injEq]
  constructor
  · rintro ⟨hanswer, rfl⟩
    have hregister : (Registry.register registration).effect blueprint.registry = (.error e, _) :=
      Prod.ext hanswer rfl
    have hsame := (Registry.register_eq_error_iff.1 hregister).2
    exact ⟨Prod.ext hanswer hsame, congrArg (fun registry => { blueprint with registry }) hsame⟩
  · rintro ⟨hregister, rfl⟩
    rw [hregister]
    exact ⟨rfl, rfl⟩

theorem tryRegister_of_eq_ok (h : (register registration).effect blueprint = (.ok id, next)) :
    blueprint.tryRegister registration = next := by
  rw [tryRegister, h]

theorem registerAll_cons_eq_ok_iff :
    blueprint.registerAll (registration :: registrations) = .ok last ↔
      ∃ id registry,
        (Registry.register registration).effect blueprint.registry = (.ok id, registry) ∧
          registerAll { blueprint with registry } registrations = .ok last := by
  rw [registerAll, InPlace.all_cons_eq_ok_iff]
  simp only [register_eq_ok_iff]
  constructor
  · rintro ⟨id, _, ⟨registry, hadded, rfl⟩, hrest⟩
    exact ⟨id, registry, hadded, hrest⟩
  · rintro ⟨id, registry, hadded, hrest⟩
    exact ⟨id, _, ⟨registry, hadded, rfl⟩, hrest⟩

theorem Reachable.wellFormed (h : blueprint.Reachable) : blueprint.registry.WellFormed := by
  induction h with
  | start settings => exact .empty
  | tryRegister registration _ ih => exact ih.register (Prod.ext rfl rfl)

theorem Reachable.registerAll (h : blueprint.Reachable)
    (hregister : blueprint.registerAll registrations = .ok last) : last.Reachable := by
  induction registrations generalizing blueprint with
  | nil =>
    cases hregister
    exact h
  | cons registration registrations ih =>
    obtain ⟨id, registry, hadded, hrest⟩ := registerAll_cons_eq_ok_iff.1 hregister
    have hnext := tryRegister_of_eq_ok (register_eq_ok_iff.2 ⟨registry, hadded, rfl⟩)
    exact ih (hnext ▸ h.tryRegister registration) hrest

theorem wellFormed_of_registerAll {settings : Settings}
    (hregister : Blueprint.registerAll { settings } registrations = .ok last) :
    last.registry.WellFormed :=
  ((Reachable.start settings).registerAll hregister).wellFormed

/-! ## Finalizing -/

/-- A finalized classifier is known by what is read off it. -/
theorem exists_finalize_of_map {α : Type} {read : Classifier → α} {value : α}
    (h : blueprint.finalize.map (·.map read) = .ok (.ok value)) :
    ∃ classifier, blueprint.finalize = .ok (.ok classifier) ∧ read classifier = value := by
  match hfinalize : blueprint.finalize with
  | .error fault => simp [hfinalize, Except.map] at h
  | .ok (.error violation) => simp [hfinalize, Except.map] at h
  | .ok (.ok classifier) => exact ⟨classifier, rfl, by simpa [hfinalize, Except.map] using h⟩

/-- A blueprint that is built without an error, and its classifier, are known by what is read off
the classifier. -/
theorem exists_classifier_of_map {α : Type} {built : Except DeclarationError Blueprint}
    {read : Classifier → α} {value : α}
    (h : built.map (fun blueprint => blueprint.finalize.map (·.map read)) = .ok (.ok (.ok value))) :
    ∃ blueprint classifier, built = .ok blueprint ∧ blueprint.finalize = .ok (.ok classifier) ∧
      read classifier = value := by
  cases built with
  | error violation => simp [Except.map] at h
  | ok blueprint =>
    obtain ⟨classifier, hfinalize, hread⟩ := exists_finalize_of_map (Except.ok.inj h)
    exact ⟨blueprint, classifier, rfl, hfinalize, hread⟩

theorem finalize_of_consistent (h : blueprint.registry.WellFormed)
    (hconsistent : blueprint.registry.Consistent) :
    ∃ s, blueprint.registry.linkGraph.Solved s ∧
      blueprint.finalize = .ok (.ok {
        blueprint.registry with
        dependencies := blueprint.registry.toList.flatMap FuzzyClass.dependencies
        schedule := {
          order := s.order.toList.map .entry
          cyclic := s.cyclic.toList.map .entry } }) := by
  obtain ⟨findings, hsweep, hviolations, hdependencies⟩ := h.sweep_finds .failFast
  have hnone := Registry.violations_eq_nil_iff.2 hconsistent
  obtain ⟨s, -, hsolved, hschedule⟩ := h.schedule_eq_ok hconsistent
  refine ⟨s, hsolved, ?_⟩
  rw [Policy.reported_eq_nil_iff.2 hnone] at hviolations
  rw [finalize, bind_of_eq_ok hsweep, hviolations, hdependencies hnone]
  simp only [Classifier.ofRegistry, bind_of_eq_ok hschedule]
  rfl

theorem consistent_of_finalize (h : blueprint.registry.WellFormed)
    (hfinalize : blueprint.finalize = .ok (.ok classifier)) : blueprint.registry.Consistent := by
  obtain ⟨findings, hsweep, hviolations, -⟩ := h.sweep_finds .failFast
  rw [← Registry.violations_eq_nil_iff, ← Policy.reported_eq_nil_iff, ← hviolations]
  rw [finalize, bind_of_eq_ok hsweep] at hfinalize
  split at hfinalize
  · cases hfinalize
  · assumption

/-- Exactly the consistent registries are finalized. -/
theorem exists_finalize_iff (h : blueprint.registry.WellFormed) :
    (∃ classifier, blueprint.finalize = .ok (.ok classifier)) ↔ blueprint.registry.Consistent := by
  constructor
  · rintro ⟨classifier, hfinalize⟩
    exact consistent_of_finalize h hfinalize
  · intro hconsistent
    obtain ⟨s, -, hfinalize⟩ := finalize_of_consistent h hconsistent
    exact ⟨_, hfinalize⟩

/-- What a finalized classifier consists of. -/
theorem exists_solved_of_finalize (h : blueprint.registry.WellFormed)
    (hfinalize : blueprint.finalize = .ok (.ok classifier)) :
    ∃ s, blueprint.registry.linkGraph.Solved s ∧
      classifier = {
        blueprint.registry with
        dependencies := blueprint.registry.toList.flatMap FuzzyClass.dependencies
        schedule := {
          order := s.order.toList.map .entry
          cyclic := s.cyclic.toList.map .entry } } := by
  obtain ⟨s, hsolved, hsame⟩ := finalize_of_consistent h (consistent_of_finalize h hfinalize)
  rw [hfinalize] at hsame
  cases hsame
  exact ⟨s, hsolved, rfl⟩

end Blueprint

end FuzzyHierarchy
