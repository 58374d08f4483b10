import FuzzyHierarchy.Listing.BoundedWriter

/-
Writing a listing statement by statement. Each statement hands one piece of text to the writer, and
the next one is only come to when the piece was taken, so every statement can be the one that ends
the writing. What the writer is and when it fails is left open.
-/

namespace FuzzyHierarchy

/-- Writing to a writer with the states `σ` and the failures `ε`. What was written before a failure
stays written. -/
abbrev Writing (σ ε : Type) := ExceptT ε (StateT σ (Except Fault))

namespace Listing

variable {σ ε : Type} (put : String → Writing σ ε Unit)

/-- Writes the heading of a class. -/
def writeHeading (classifier : Classifier) (id : ClassId) (cls : FuzzyClass) :
    Writing σ ε Unit := do
  if cls.hidden then
    put "hidden "
  put "class "
  put cls.name
  if let some superclass ← classifier.superclassOf? id then
    put " : "
    put superclass.name
  put "\n"

/-- Writes the lines of what a class declares itself. -/
def writeSymbols (cls : FuzzyClass) : Writing σ ε Unit := do
  cls.vars.toList.forM fun name => do
    put indent
    put "var "
    put name
    put "\n"
  cls.consts.toList.forM fun (name, value) => do
    put indent
    put "const "
    put name
    put " = "
    put value
    put "\n"
  cls.constraints.toList.forM fun constraint => do
    put indent
    put constraint.text
    put "\n"

/-- Writes the lines of the class that holds an id. -/
def writeClass (classifier : Classifier) (id : ClassId) : Writing σ ε Unit := do
  let cls ← classifier.fetch id
  writeHeading put classifier id cls
  writeSymbols put cls

/-- Writes the lines of the dependencies. -/
def writeDependencies (classifier : Classifier) : Writing σ ε Unit := do
  put "dependencies"
  put "\n"
  classifier.dependencies.forM fun dependency => do
    put indent
    put dependency.text
    put "\n"

/-- Writes the line of the order of evaluation. -/
def writeOrder (classifier : Classifier) : Writing σ ε Unit := do
  let words ← (classifier.schedule.order.mapM (orderWord classifier) : Except Fault _)
  let order := " ".intercalate words
  if order.isEmpty then
    put "order"
    put "\n"
  else
    put "order "
    put order
    put "\n"

/-- Writes a piece where there is always room. -/
def append (piece : String) : Writing String Empty Unit := modify (· ++ piece)

end Listing

/-- Writes the listing of a classifier. -/
def Classifier.write {σ ε : Type} (classifier : Classifier) (put : String → Writing σ ε Unit) :
    Writing σ ε Unit := do
  classifier.ids.forM (Listing.writeClass put classifier)
  Listing.writeDependencies put classifier
  Listing.writeOrder put classifier

/-- Writes a piece where there is limited room. -/
def BoundedWriter.put (piece : String) : Writing BoundedWriter WriteFailure Unit := do
  match (← get).write piece with
  | (writer, none) => set writer
  | (writer, some failure) => do
    set writer
    throw failure

end FuzzyHierarchy
