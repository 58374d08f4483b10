import FuzzyHierarchy.DeclarationError
import FuzzyHierarchy.Fault
import FuzzyHierarchy.InPlace

/-
Diagnostics and the report that collects them. A diagnostic is drafted at a level from messages and
errors: the last message counts, an error gives its own text only where no message stands yet, and
the last error is kept as the source. A draft without a message cannot be emitted.
-/

namespace FuzzyHierarchy

/-- How grave a diagnostic is, the gravest first. -/
inductive Level where
  | fatal
  | error
  | warn
  | info
  deriving DecidableEq, Repr

namespace Level

/-- The place in the order of levels. -/
def rank : Level → Nat
  | fatal => 0
  | error => 1
  | warn => 2
  | info => 3

instance : LT Level := ⟨fun a b => a.rank < b.rank⟩
instance : LE Level := ⟨fun a b => a.rank ≤ b.rank⟩
instance (a b : Level) : Decidable (a < b) := inferInstanceAs (Decidable (a.rank < b.rank))
instance (a b : Level) : Decidable (a ≤ b) := inferInstanceAs (Decidable (a.rank ≤ b.rank))
instance : Max Level := maxOfLe

/-- The word for a level. -/
def text : Level → String
  | fatal => "FATAL"
  | error => "ERROR"
  | warn => "WARN"
  | info => "INFO"

/-- The level of a word. -/
def ofText? (text : String) : Option Level :=
  [fatal, error, warn, info].find? (·.text == text)

end Level

/-- An emitted problem. -/
structure Diagnostic where
  level : Level
  message : String
  source? : Option DeclarationError := none
  deriving DecidableEq, Repr

/-- A diagnostic that is not emitted yet. -/
structure Draft where
  level : Level
  message? : Option String := none
  source? : Option DeclarationError := none
  deriving DecidableEq, Repr

/-- What a draft is made of. -/
inductive Draft.Part where
  | message (text : String)
  | error (error : DeclarationError)
  deriving DecidableEq, Repr

namespace Draft

/-- Sets the message. -/
def withMessage (draft : Draft) (text : String) : Draft := { draft with message? := some text }

/-- Makes an error the source, and its text the message unless there is one. -/
def withError (draft : Draft) (error : DeclarationError) : Draft :=
  { draft with message? := draft.message?.or (some error.message), source? := some error }

/-- Adds a part. -/
def withPart (draft : Draft) : Part → Draft
  | .message text => draft.withMessage text
  | .error error => draft.withError error

/-- The diagnostic of a draft that has a message. -/
def finish (draft : Draft) : Except Fault Diagnostic :=
  match draft.message? with
  | some message => .ok { level := draft.level, message, source? := draft.source? }
  | none => .error .messageMissing

end Draft

/-- The diagnostics emitted so far, in order. -/
structure Report where
  diagnostics : Array Diagnostic := #[]

namespace Report

instance : EmptyCollection Report := ⟨{}⟩
instance : Inhabited Report := ⟨∅⟩

/-- The diagnostics in the order of emission. -/
def toList (report : Report) : List Diagnostic := report.diagnostics.toList

/-- Adds a drafted diagnostic at the end. -/
def emit (report : Report) (draft : Draft) : Except Fault Report := do
  let diagnostic ← draft.finish
  return ⟨report.diagnostics.push diagnostic⟩

/-- Drafts a diagnostic from its parts and emits it. -/
def emitParts (report : Report) (level : Level) (parts : List Draft.Part) : Except Fault Report :=
  report.emit (parts.foldl Draft.withPart { level })

/-- Finishes a draft, and then adds the diagnostic at the end of the report in its place. -/
def emitInPlace (draft : Draft) : InPlace Fault Report Unit := do
  let diagnostic ← draft.finish
  modify fun report => ⟨report.diagnostics.push diagnostic⟩

/-- The number of diagnostics at the levels `fatal` and `error`. -/
def errorCount (report : Report) : Nat :=
  (report.toList.filter fun diagnostic => diagnostic.level ≤ .error).length

/-- Whether there is a diagnostic at the levels `fatal` and `error`. -/
def hasErrors (report : Report) : Bool := report.errorCount > 0

/-- The sources of the diagnostics that have one, at any level, in the order of emission. -/
def errors (report : Report) : List DeclarationError := report.toList.filterMap (·.source?)

/-- Emitting in place is emitting, and a fault leaves the report as it was. -/
theorem effect_emitInPlace (report : Report) (draft : Draft) :
    (emitInPlace draft).effect report = InPlace.outcome report (report.emit draft) := by
  unfold emitInPlace emit
  cases draft.finish <;> rfl

end Report

end FuzzyHierarchy
