import FuzzyHierarchy.Classifier.Basic

/-
The listing of a classifier, line by line: each class in the order of registration with its
variables, constants and constraints, then the dependencies, then the order of evaluation with a
star on each class that lies on a cycle. The listing is given as the pieces of text that are
written one after another; nothing in it is escaped.
-/

namespace FuzzyHierarchy

namespace Listing

/-- What the lines below a heading start with. -/
def indent : String := "    "

/-- The heading of a class. -/
def heading (cls : FuzzyClass) (superclass? : Option FuzzyClass) : List String :=
  (if cls.hidden then ["hidden "] else []) ++ ["class ", cls.name] ++
    (match superclass? with
      | none => []
      | some superclass => [" : ", superclass.name]) ++ ["\n"]

/-- The lines of what a class declares itself. -/
def symbols (cls : FuzzyClass) : List String :=
  (cls.vars.toList.flatMap fun name => [indent, "var ", name, "\n"]) ++
  (cls.consts.toList.flatMap fun (name, value) =>
    [indent, "const ", name, " = ", value, "\n"]) ++
  cls.constraints.toList.flatMap fun constraint => [indent, constraint.text, "\n"]

/-- The lines of the dependencies. -/
def dependencies (classifier : Classifier) : List String :=
  ["dependencies", "\n"] ++
    classifier.dependencies.flatMap fun dependency => [indent, dependency.text, "\n"]

/-- The word for a class in the order of evaluation. -/
def orderWord (classifier : Classifier) (id : ClassId) : Except Fault String := do
  let cls ← classifier.fetch id
  return if classifier.schedule.isCyclic id then cls.name ++ "*" else cls.name

/-- The line of the order of evaluation. -/
def orderLine (words : List String) : List String :=
  let order := " ".intercalate words
  if order.isEmpty then ["order", "\n"] else ["order ", order, "\n"]

/-- The lines of one class. -/
def classLines (classifier : Classifier) (id : ClassId) (cls : FuzzyClass) :
    Except Fault (List String) := do
  let superclass? ← classifier.superclassOf? id
  return heading cls superclass? ++ symbols cls

end Listing

/-- The listing of a classifier, in pieces. -/
def Classifier.listing (classifier : Classifier) : Except Fault (List String) := do
  let entries ← classifier.entries
  let classes ← entries.mapM fun (id, cls) => Listing.classLines classifier id cls
  let words ← classifier.schedule.order.mapM (Listing.orderWord classifier)
  return classes.flatten ++ Listing.dependencies classifier ++ Listing.orderLine words

/-- The listing of a classifier as one text. -/
def Classifier.text (classifier : Classifier) : Except Fault String :=
  String.join <$> classifier.listing

end FuzzyHierarchy
