import FuzzyHierarchy.ClassId
import FuzzyHierarchy.Constraint.Assembly
import FuzzyHierarchy.Symbols.Constants
import FuzzyHierarchy.Symbols.Variables

/-
A fuzzy class: its name, its superclass, and what it declares itself. A registration asks for a
class and names the superclass; the class that a registry keeps has the id in its place.
-/

namespace FuzzyHierarchy

/-- What a class declares itself, apart from its place among the other classes. -/
structure ClassBody where
  vars : Variables := ∅
  consts : Constants := ∅
  constraints : Constraints := ∅
  /-- A hidden class is not listed among the visible ones; it can still be extended and targeted. -/
  hidden : Bool := false

/-- A class that is to be registered. -/
structure Registration extends ClassBody where
  name : String
  /-- The name of the superclass. The empty name stands for no superclass. -/
  superclass? : Option String := none

/-- A class as a registry keeps it. -/
structure FuzzyClass extends ClassBody where
  name : String
  superclass? : Option ClassId := none

/-- Whether the class declares the variable itself; inherited variables do not count. -/
def FuzzyClass.declares (cls : FuzzyClass) (name : String) : Bool :=
  cls.vars.contains name

end FuzzyHierarchy
