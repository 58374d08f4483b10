/-
The four kinds of constraint: how many tokens each takes, whether it relates the class to another
one, and the words that name it in messages.
-/

namespace FuzzyHierarchy

namespace Constraint

/-- The form of a constraint: which names it uses and in which order its tokens come. -/
inductive Kind where
  | simpleFeature
  | simpleRelation
  | complexRelation
  | inverseRelation
  deriving DecidableEq, Repr

namespace Kind

/-- The number of positional tokens that a constraint of this kind is put together from. -/
def arity : Kind → Nat
  | simpleFeature => 2
  | simpleRelation => 4
  | complexRelation => 5
  | inverseRelation => 5

/-- Every kind but the simple feature relates its class to a target class. -/
def isRelation : Kind → Bool
  | simpleFeature => false
  | simpleRelation | complexRelation | inverseRelation => true

/-- The words that name the kind in a message. -/
def text : Kind → String
  | simpleFeature => "simple feature"
  | simpleRelation => "simple relation"
  | complexRelation => "complex relation"
  | inverseRelation => "inverse relation"

end Kind

end Constraint

end FuzzyHierarchy
