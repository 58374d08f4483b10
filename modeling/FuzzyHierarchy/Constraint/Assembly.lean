import FuzzyHierarchy.Constraint.Basic
import FuzzyHierarchy.InPlace

/-
The constraints of one class, in the order in which they were added. Repeats are kept. A constraint
that cannot be put together is refused and leaves the list as it was.
-/

namespace FuzzyHierarchy

/-- The constraints of one class, in order. -/
structure Constraints where
  items : List Constraint := []
  deriving DecidableEq, Repr

namespace Constraints

instance : EmptyCollection Constraints := ⟨{}⟩
instance : Inhabited Constraints := ⟨∅⟩

/-- The constraints in order. -/
def toList (constraints : Constraints) : List Constraint := constraints.items

def size (constraints : Constraints) : Nat := constraints.items.length

def isEmpty (constraints : Constraints) : Bool := constraints.items.isEmpty

/-- Adds a constraint at the end. -/
def push (constraints : Constraints) (constraint : Constraint) : Constraints :=
  ⟨constraints.items ++ [constraint]⟩

/-- Puts a constraint together from its tokens and adds it at the end. -/
def assemble (constraints : Constraints) (kind : Constraint.Kind) (tokens : List String) :
    Except DeclarationError Constraints :=
  (Constraint.ofTokens kind tokens).map constraints.push

/-- Puts the constraints of a list together one after another. -/
def assembleAll (constraints : Constraints) (parts : List (Constraint.Kind × List String)) :
    Except DeclarationError Constraints :=
  parts.foldlM (fun assembled part => assembled.assemble part.1 part.2) constraints

/-- Adds a constraint at the end of the list in its place. -/
def pushInPlace (constraint : Constraint) : InPlace DeclarationError Constraints Unit :=
  modify (·.push constraint)

/-- Puts a constraint together from its tokens, and then adds it at the end of the list in its
place. -/
def assembleInPlace (kind : Constraint.Kind) (tokens : List String) :
    InPlace DeclarationError Constraints Unit := do
  let constraint ← Constraint.ofTokens kind tokens
  pushInPlace constraint

@[simp] theorem toList_push (constraints : Constraints) (constraint : Constraint) :
    (constraints.push constraint).toList = constraints.toList ++ [constraint] := rfl

theorem effect_pushInPlace (constraints : Constraints) (constraint : Constraint) :
    (pushInPlace constraint).effect constraints = (.ok (), constraints.push constraint) := rfl

/-- Assembling in place is assembling, and a refusal changes nothing. -/
theorem effect_assembleInPlace (constraints : Constraints) (kind : Constraint.Kind)
    (tokens : List String) :
    (assembleInPlace kind tokens).effect constraints =
      InPlace.outcome constraints (constraints.assemble kind tokens) := by
  unfold assembleInPlace assemble
  cases Constraint.ofTokens kind tokens <;> rfl

end Constraints

end FuzzyHierarchy
