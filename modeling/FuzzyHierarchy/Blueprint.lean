import FuzzyHierarchy.Classifier.Basic
import FuzzyHierarchy.Diagnostic
import FuzzyHierarchy.Findings
import FuzzyHierarchy.Settings.Basic

/-
Building a classifier. Classes are registered one after another, which checks what can be checked at
once; finalizing sweeps the whole registry and, if nothing is violated, schedules it. A violation is
either the answer of `finalize`, which stops at the first, or goes to a report under the policy of
the settings.
-/

namespace FuzzyHierarchy

/-- A classifier under construction. -/
structure Blueprint where
  settings : Settings := {}
  registry : Registry := ∅

namespace Blueprint

instance : Inhabited Blueprint := ⟨{}⟩

/-- Registers a class. -/
def register (registration : Registration) : InPlace DeclarationError Blueprint ClassId :=
  (Registry.register registration).onPart registry fun blueprint registry =>
    { blueprint with registry }

/-- Registers the classes of a list one after another, up to the first that is refused. -/
def registerAll (blueprint : Blueprint) (registrations : List Registration) :
    Except DeclarationError Blueprint :=
  InPlace.all register registrations blueprint

/-- Finishes the classifier, or answers with the first violation. -/
def finalize (blueprint : Blueprint) : Except Fault (Except DeclarationError Classifier) := do
  let findings ← blueprint.registry.sweep .failFast
  match findings.violations with
  | violation :: _ => return .error violation
  | [] => .ok <$> Classifier.ofRegistry blueprint.registry findings.dependencies

/-- Emits a violation at the level `error`. -/
def reportViolation (report : Report) (violation : DeclarationError) : Except Fault Report :=
  report.emit (Draft.withError { level := .error } violation)

/-- Finishes the classifier unless there are violations, which go to the report: all of them, or the
first under the fail-fast policy. What the report held before does not count. -/
def finalizeReporting (blueprint : Blueprint) (report : Report) :
    Except Fault (Option Classifier × Report) := do
  let findings ← blueprint.registry.sweep blueprint.settings.policy
  let report ← findings.violations.foldlM reportViolation report
  if findings.violations.isEmpty then
    let classifier ← Classifier.ofRegistry blueprint.registry findings.dependencies
    return (some classifier, report)
  else
    return (none, report)

end Blueprint

end FuzzyHierarchy
