import FuzzyHierarchy.Dependency
import FuzzyHierarchy.Registry.Basic

/-
The check of one constraint. Its own variables come first, then the target class and the variables
of the target; the first name that is not there is the violation. A variable has to be declared by
its class itself: what a class inherits is not visible to constraints. Target classes may be
registered before or after the owner.
-/

namespace FuzzyHierarchy

namespace FuzzyClass

/-- Looks a variable up among those that `scope` declares itself. -/
def checkVariable (scope : FuzzyClass) (name referencedFrom : String) :
    Except DeclarationError Unit :=
  if scope.declares name then
    .ok ()
  else
    .error (.undeclaredVariable scope.name name referencedFrom)

/-- Looks variables up one after another. -/
def checkVariables (scope : FuzzyClass) (names : List String) (referencedFrom : String) :
    Except DeclarationError Unit :=
  names.forM fun name => scope.checkVariable name referencedFrom

end FuzzyClass

namespace Registry

/-- Checks a relation that `owner` has to the class called `target`. The dependency that it makes is
on the class that was found. -/
def checkRelation (registry : Registry) (owner : FuzzyClass) (target : String)
    (names : List String) : ExceptT DeclarationError (Except Fault) Dependency := do
  match ← registry.find? target with
  | none => throw (.undeclaredClass owner.name target)
  | some scope =>
    scope.checkVariables names owner.name
    return { owner := owner.name, target := scope.name }

/-- Checks a constraint of `owner`. It makes a dependency if it is a relation. -/
def checkConstraint (registry : Registry) (owner : FuzzyClass) (constraint : Constraint) :
    Except Fault (Except DeclarationError (Option Dependency)) := ExceptT.run do
  owner.checkVariables constraint.ownVariables owner.name
  match constraint.target? with
  | none => return none
  | some target => some <$> registry.checkRelation owner target constraint.targetVariables

end Registry

end FuzzyHierarchy
