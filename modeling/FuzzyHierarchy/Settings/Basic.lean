import FuzzyHierarchy.Policy

/-
The settings of a blueprint.
-/

namespace FuzzyHierarchy

/-- The settings of a blueprint. -/
structure Settings where
  policy : Policy := .failFast
  deriving DecidableEq, Repr

instance : Inhabited Settings := ⟨{}⟩

end FuzzyHierarchy
