import FuzzyHierarchy.Constraint.Kind

/-
What can be wrong with a class declaration. Each cause keeps the names it is about; `message` is
the only place where the wording stands.
-/

namespace FuzzyHierarchy

/-- The two separate namespaces of a class. -/
inductive SymbolKind where
  | variableName
  | constantName
  deriving DecidableEq, Repr

/-- The word that names the namespace in a message. -/
def SymbolKind.text : SymbolKind → String
  | variableName => "variable"
  | constantName => "constant"

/-- The reason why a declaration, or a whole registry, is refused. -/
inductive DeclarationError where
  /-- The class `owner` declares `name` twice in one namespace. -/
  | duplicateSymbol (owner name : String) (kind : SymbolKind)
  /-- A class called `name` is registered already. -/
  | duplicateClass (name : String)
  /-- The superclass of `name` was not registered before it. -/
  | undeclaredSuperclass (name superclass : String)
  /-- A relation of `owner` targets a class that nobody registered. -/
  | undeclaredClass (owner target : String)
  /-- A constraint of `referencedFrom` uses a variable that `scope` does not declare itself. The two
  classes differ when the variable is one of the target of a relation. -/
  | undeclaredVariable (scope name referencedFrom : String)
  /-- A constraint of this kind came with `supplied` tokens in place of `expected`. -/
  | malformedConstraint (kind : Constraint.Kind) (expected supplied : Nat)
  deriving DecidableEq, Repr

namespace DeclarationError

/-- The class that the error is reported against, if it is about one. -/
def reportedClass? : DeclarationError → Option String
  | duplicateSymbol owner _ _ => some owner
  | duplicateClass name => some name
  | undeclaredSuperclass name _ => some name
  | undeclaredClass owner _ => some owner
  | undeclaredVariable scope _ _ => some scope
  | malformedConstraint _ _ _ => none

/-- A name as it stands in a message, between backticks. -/
def quoted (name : String) : String :=
  "`" ++ name ++ "`"

/-- The wording of an error. A variable missing in the constraint's own class is worded as a rule's
fault, one missing in the target class as a relation's. -/
def message : DeclarationError → String
  | duplicateSymbol owner name kind =>
    "redeclaration of " ++ kind.text ++ " " ++ quoted name ++ " in class " ++ quoted owner
  | duplicateClass name => "redeclaration of class " ++ quoted name
  | undeclaredSuperclass name superclass =>
    "class " ++ quoted name ++ " extends a non-declared class " ++ quoted superclass
  | undeclaredClass owner target =>
    "relation in class " ++ quoted owner ++ " references a non-existent class " ++ quoted target
  | undeclaredVariable scope name referencedFrom =>
    if scope = referencedFrom then
      "rule in class " ++ quoted scope ++ " references a non-existent variable " ++ quoted name
    else
      "relation in class " ++ quoted referencedFrom ++ " references a non-existent variable " ++
        quoted name ++ " of class " ++ quoted scope
  | malformedConstraint kind expected supplied =>
    "a " ++ kind.text ++ " takes " ++ expected.repr ++ " tokens, but " ++ supplied.repr ++
      " were supplied"

end DeclarationError

end FuzzyHierarchy
