/-
Edges of the dependency graph, kept by name: a relation of the owner refers to the target.
-/

namespace FuzzyHierarchy

/-- A relation of the class `owner` refers to the class `target`. -/
structure Dependency where
  owner : String
  target : String
  deriving DecidableEq, Repr

/-- The text of an edge. -/
def Dependency.text (dependency : Dependency) : String :=
  dependency.owner ++ " -> " ++ dependency.target

end FuzzyHierarchy
