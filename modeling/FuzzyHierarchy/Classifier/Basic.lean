import FuzzyHierarchy.Schedule
import FuzzyHierarchy.Registry.Inheritance

/-
A finished classifier: a registry whose constraints all resolve, with its dependencies and its
schedule.
-/

namespace FuzzyHierarchy

/-- A registry with its dependencies, in the order of the sweep, and its schedule. -/
structure Classifier extends Registry where
  dependencies : List Dependency
  schedule : Schedule

namespace Classifier

/-- Schedules a registry that was swept without violations. -/
def ofRegistry (registry : Registry) (dependencies : List Dependency) :
    Except Fault Classifier := do
  let schedule ← registry.schedule dependencies
  return { registry with dependencies, schedule }

/-- The dependencies of the class called `owner`. -/
def dependenciesOf (classifier : Classifier) (owner : String) : List Dependency :=
  classifier.dependencies.filter (·.owner == owner)

/-- The classes in the order of evaluation. -/
def evaluationOrder (classifier : Classifier) : Except Fault (List FuzzyClass) :=
  classifier.schedule.order.mapM classifier.fetch

/-- Whether a class of this name lies on a cycle. -/
def isCyclic (classifier : Classifier) (name : String) : Bool :=
  match classifier.idOf? name with
  | some id => classifier.schedule.isCyclic id
  | none => false

end Classifier

end FuzzyHierarchy
