import FuzzyHierarchy.Blueprint

/-
Class declarations as they are written down: names and tokens that nobody has checked yet. The
symbols are declared in order, the constraints are put together, and the class is registered; the
first thing that is refused ends the declaration.
-/

namespace FuzzyHierarchy

/-- A class as it is written down. -/
structure Declaration where
  name : String
  superclass? : Option String := none
  vars : List String := []
  consts : List (String × String) := []
  constraints : List (Constraint.Kind × List String) := []
  hidden : Bool := false
  deriving DecidableEq, Repr

/-- Declares the variables, then the constants, and puts the constraints together. -/
def Declaration.registration (declaration : Declaration) :
    Except DeclarationError Registration := do
  let vars ← Variables.declareAll ∅ declaration.name declaration.vars
  let consts ← Constants.declareAll ∅ declaration.name declaration.consts
  let constraints ← Constraints.assembleAll ∅ declaration.constraints
  return {
    name := declaration.name
    superclass? := declaration.superclass?
    vars, consts, constraints
    hidden := declaration.hidden }

namespace Blueprint

/-- Registers a class as it is written down. -/
def declare (declaration : Declaration) : InPlace DeclarationError Blueprint ClassId := do
  let registration ← declaration.registration
  register registration

/-- Registers the classes of a list one after another, up to the first that is refused. -/
def declareAll (blueprint : Blueprint) (declarations : List Declaration) :
    Except DeclarationError Blueprint :=
  InPlace.all declare declarations blueprint

end Blueprint

end FuzzyHierarchy
