/-
What a consistency sweep does after a violation.
-/

namespace FuzzyHierarchy

/-- What a sweep does after a violation. -/
inductive Policy where
  /-- Stop at the first violation. -/
  | failFast
  /-- Check every constraint and keep all violations. -/
  | collectAll
  deriving DecidableEq, Repr

namespace Policy

instance : Inhabited Policy := ⟨.failFast⟩

/-- The name of a policy in settings. -/
def name : Policy → String
  | failFast => "FailFast"
  | collectAll => "CollectAll"

/-- The policy of a name. -/
def ofName? (name : String) : Option Policy :=
  [failFast, collectAll].find? (·.name == name)

end Policy

end FuzzyHierarchy
