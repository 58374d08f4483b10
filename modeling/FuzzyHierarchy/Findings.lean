import FuzzyHierarchy.Check
import FuzzyHierarchy.Policy

/-
The sweep over a whole registry: every constraint of every class, classes in the order of
registration and constraints in the order of the class. A constraint either violates the registry
or, if it is a relation, gives one dependency; repeated relations give repeated dependencies.

Under the fail-fast policy the sweep ends at the first violation, otherwise it goes on to the end.
-/

namespace FuzzyHierarchy

/-- What a sweep has found, in the order of the sweep. -/
structure Findings where
  violations : List DeclarationError := []
  dependencies : List Dependency := []
  deriving DecidableEq, Repr

namespace Findings

/-- What the check of one constraint finds. -/
def ofAnswer : Except DeclarationError (Option Dependency) → Findings
  | .ok dependency? => { dependencies := dependency?.toList }
  | .error violation => { violations := [violation] }

/-- What two parts of a sweep find, one after the other. -/
instance : Append Findings where
  append a b := {
    violations := a.violations ++ b.violations
    dependencies := a.dependencies ++ b.dependencies }

end Findings

namespace Policy

/-- Whether a sweep ends with what it has found. -/
def ends (policy : Policy) (findings : Findings) : Bool :=
  policy == .failFast && !findings.violations.isEmpty

/-- Collects what is found in the parts of a sweep, up to one with which the sweep ends. -/
def collect {α : Type} (policy : Policy) (find : α → Except Fault Findings) :
    List α → Except Fault Findings
  | [] => .ok {}
  | part :: rest => do
    let findings ← find part
    if policy.ends findings then
      return findings
    let later ← policy.collect find rest
    return findings ++ later

end Policy

namespace Registry

/-- Checks every constraint of the class that holds an id. -/
def sweepClass (registry : Registry) (policy : Policy) (id : ClassId) : Except Fault Findings := do
  let owner ← registry.fetch id
  policy.collect (fun constraint => .ofAnswer <$> registry.checkConstraint owner constraint)
    owner.constraints.toList

/-- Checks every constraint of every class. -/
def sweep (registry : Registry) (policy : Policy) : Except Fault Findings :=
  policy.collect (registry.sweepClass policy) registry.ids

end Registry

end FuzzyHierarchy
