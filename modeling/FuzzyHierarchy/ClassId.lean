/-
Ids of registered classes. An id tells the slot of a class, so ids of two registries can be equal;
the null id is held by no registry.
-/

namespace FuzzyHierarchy

/-- The id of a class. -/
inductive ClassId where
  /-- The class in the slot `index`. -/
  | entry (index : Nat)
  /-- The id of no class. -/
  | null
  deriving DecidableEq, Repr

/-- The slot of an id that has one. -/
def ClassId.index? : ClassId → Option Nat
  | .entry index => some index
  | .null => none

end FuzzyHierarchy
