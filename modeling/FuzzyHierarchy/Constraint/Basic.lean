import FuzzyHierarchy.DeclarationError

/-
The constraints of a fuzzy class. A constraint is put together from the positional tokens of its
kind, gives the names that have to be declared somewhere, and has one line of text.

The own variables, the target class and the target variables of a constraint, each in the order in
which they are checked, are all that the rest of the library asks of it; the label is free text.
-/

namespace FuzzyHierarchy

/-- A constraint of a class: the value of its own variables is described by a label, alone or
relative to variables of a target class. -/
inductive Constraint where
  /-- `own` matches `label`. -/
  | simpleFeature (own label : String)
  /-- `own` matches `label` relative to one variable of the target. -/
  | simpleRelation (target remote own label : String)
  /-- Two own variables match `label` relative to one variable of the target. -/
  | complexRelation (target remote first second label : String)
  /-- `own` matches `label` relative to two variables of the target. -/
  | inverseRelation (own target first second label : String)
  deriving DecidableEq, Repr

namespace Constraint

/-- Puts a constraint together from its tokens. The fields of each kind come in the order of the
constructor's arguments: an inverse relation starts with its own variable, the other relations with
their target. Names are not looked up here. -/
def ofTokens (kind : Kind) (tokens : List String) : Except DeclarationError Constraint :=
  match kind, tokens with
  | .simpleFeature, [own, label] => .ok (simpleFeature own label)
  | .simpleRelation, [target, remote, own, label] => .ok (simpleRelation target remote own label)
  | .complexRelation, [target, remote, first, second, label] =>
    .ok (complexRelation target remote first second label)
  | .inverseRelation, [own, target, first, second, label] =>
    .ok (inverseRelation own target first second label)
  | kind, tokens => .error (.malformedConstraint kind kind.arity tokens.length)

/-! ## What a constraint consists of -/

/-- The form of the constraint. -/
def kind : Constraint → Kind
  | simpleFeature .. => .simpleFeature
  | simpleRelation .. => .simpleRelation
  | complexRelation .. => .complexRelation
  | inverseRelation .. => .inverseRelation

/-- The label that the variables are matched with. -/
def label : Constraint → String
  | simpleFeature _ label => label
  | simpleRelation _ _ _ label => label
  | complexRelation _ _ _ _ label => label
  | inverseRelation _ _ _ _ label => label

/-- The variables that the owner of the constraint has to declare, in checking order. -/
def ownVariables : Constraint → List String
  | simpleFeature own _ => [own]
  | simpleRelation _ _ own _ => [own]
  | complexRelation _ _ first second _ => [first, second]
  | inverseRelation own _ _ _ _ => [own]

/-- The class that a relation refers to; a simple feature has none. -/
def target? : Constraint → Option String
  | simpleFeature .. => none
  | simpleRelation target _ _ _ => some target
  | complexRelation target _ _ _ _ => some target
  | inverseRelation _ target _ _ _ => some target

/-- The variables that the target class has to declare, in checking order. -/
def targetVariables : Constraint → List String
  | simpleFeature .. => []
  | simpleRelation _ remote _ _ => [remote]
  | complexRelation _ remote _ _ _ => [remote]
  | inverseRelation _ _ first second _ => [first, second]

/-- The line of text of a constraint. Two variables on one side stand in parentheses. -/
def text : Constraint → String
  | simpleFeature own label => own ++ " is " ++ label
  | simpleRelation target remote own label =>
    own ++ " is " ++ label ++ " relative to " ++ target ++ "." ++ remote
  | complexRelation target remote first second label =>
    "(" ++ first ++ ", " ++ second ++ ") is " ++ label ++ " relative to " ++ target ++ "." ++ remote
  | inverseRelation own target first second label =>
    own ++ " is " ++ label ++ " relative to " ++ target ++ ".(" ++ first ++ ", " ++ second ++ ")"

/-! ## Putting together -/

/-- A token list is refused exactly when it has not the length that its kind takes. -/
theorem ofTokens_eq_error_iff {kind : Kind} {tokens : List String} {e : DeclarationError} :
    ofTokens kind tokens = .error e ↔
      tokens.length ≠ kind.arity ∧ e = .malformedConstraint kind kind.arity tokens.length := by
  unfold ofTokens
  split
  case h_5 =>
    rename_i h1 h2 h3 h4
    have hne : tokens.length ≠ kind.arity := by
      intro hlen
      match kind, tokens, hlen with
      | .simpleFeature, [_, _], _ => exact h1 _ _ rfl rfl
      | .simpleRelation, [_, _, _, _], _ => exact h2 _ _ _ _ rfl rfl
      | .complexRelation, [_, _, _, _, _], _ => exact h3 _ _ _ _ _ rfl rfl
      | .inverseRelation, [_, _, _, _, _], _ => exact h4 _ _ _ _ _ rfl rfl
    rw [Except.error.injEq, eq_comm]
    exact (and_iff_right hne).symm
  all_goals exact iff_of_false (by simp) fun h => h.1 rfl

end Constraint

end FuzzyHierarchy
