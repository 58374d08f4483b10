import FuzzyHierarchy.DeclarationError
import Mathlib.Data.List.Basic
import Std.Data.String.ToNat

/-
The wording of errors can be read back. A message is joined at backticks from wording and names in
turn, so as long as no name has a backtick in it, the pieces can be told apart and the wording among
them tells what the names are. The message about the number of tokens has no names; it is joined at
blanks from words and counts.

Main statement: errors whose names have no backtick are equal if their messages are, although a
name may be made of the words of other messages.
-/

namespace FuzzyHierarchy

/-- The pieces that a text is joined from at a separator. -/
def splitText (separator : Char) (text : String) : List String :=
  (text.toList.splitOn separator).map String.ofList

/-- Pieces without the separator are told apart by it. -/
theorem splitText_eq {separator : Char} {text : String} {pieces : List String}
    (hjoined : text.toList = [separator].intercalate (pieces.map String.toList))
    (hne : pieces ≠ []) (hnone : ∀ piece ∈ pieces, separator ∉ piece.toList) :
    splitText separator text = pieces := by
  rw [splitText, hjoined, List.splitOn_intercalate separator _ (by simpa using hne), List.map_map]
  · simp
  · intro chars hchars
    obtain ⟨piece, hpiece, rfl⟩ := List.mem_map.1 hchars
    exact hnone piece hpiece

/-- A number is written with digits only. -/
theorem notMem_toDigits {c : Char} (hc : c.isDigit = false) (n : Nat) : c ∉ Nat.toDigits 10 n := by
  intro hmem
  rw [Nat.isDigit_of_mem_toDigits (by decide) (by decide) hmem] at hc
  cases hc

/-! ## Words and counts -/

namespace Constraint.Kind

/-- The words that name the kind in a message, one by one. -/
def words : Constraint.Kind → List String
  | simpleFeature => ["simple", "feature"]
  | simpleRelation => ["simple", "relation"]
  | complexRelation => ["complex", "relation"]
  | inverseRelation => ["inverse", "relation"]

/-- The kind that two words name. -/
def ofWords? : String → String → Option Constraint.Kind
  | "simple", "feature" => some simpleFeature
  | "simple", "relation" => some simpleRelation
  | "complex", "relation" => some complexRelation
  | "inverse", "relation" => some inverseRelation
  | _, _ => none

end Constraint.Kind

namespace DeclarationError

/-- The words of the message about a wrong number of tokens. -/
def countWords (kind : Constraint.Kind) (expected supplied : Nat) : List String :=
  "a" :: kind.words ++ ["takes", expected.repr, "tokens,", "but", supplied.repr, "were", "supplied"]

/-- The error that is told by words and counts. -/
def ofCountWords? : List String → Option DeclarationError
  | ["a", first, second, "takes", expected, "tokens,", "but", supplied, "were", "supplied"] => do
    let kind ← Constraint.Kind.ofWords? first second
    return malformedConstraint kind (← expected.toNat?) (← supplied.toNat?)
  | _ => none

section Counts

variable (kind : Constraint.Kind) (expected supplied : Nat)

theorem ofCountWords?_countWords :
    ofCountWords? (countWords kind expected supplied) =
      some (malformedConstraint kind expected supplied) := by
  cases kind <;>
    simp [countWords, ofCountWords?, Constraint.Kind.words, Constraint.Kind.ofWords?,
      Nat.toNat?_repr]

theorem splitText_message_malformed :
    splitText ' ' (malformedConstraint kind expected supplied).message =
      countWords kind expected supplied := by
  have hdigits := notMem_toDigits (c := ' ') (by decide)
  refine splitText_eq ?_ (by simp [countWords]) ?_
  · unfold message
    cases kind <;> simp [Constraint.Kind.text, countWords, Constraint.Kind.words]
  · cases kind <;> simp [countWords, Constraint.Kind.words, hdigits]

end Counts

/-! ## Wording and names -/

/-- The names that an error is about. -/
def names : DeclarationError → List String
  | duplicateSymbol owner name _ => [owner, name]
  | duplicateClass name => [name]
  | undeclaredSuperclass name superclass => [name, superclass]
  | undeclaredClass owner target => [owner, target]
  | undeclaredVariable scope name referencedFrom => [scope, name, referencedFrom]
  | malformedConstraint _ _ _ => []

/-- No name has a backtick in it. -/
def Quotable (e : DeclarationError) : Prop := ∀ name ∈ e.names, '\x60' ∉ name.toList

/-- What stands between the backticks of a message: wording and names in turn. -/
def pieces : DeclarationError → List String
  | duplicateSymbol owner name kind =>
    ["redeclaration of " ++ kind.text ++ " ", name, " in class ", owner, ""]
  | duplicateClass name => ["redeclaration of class ", name, ""]
  | undeclaredSuperclass name superclass =>
    ["class ", name, " extends a non-declared class ", superclass, ""]
  | undeclaredClass owner target =>
    ["relation in class ", owner, " references a non-existent class ", target, ""]
  | undeclaredVariable scope name referencedFrom =>
    if scope = referencedFrom then
      ["rule in class ", scope, " references a non-existent variable ", name, ""]
    else
      ["relation in class ", referencedFrom, " references a non-existent variable ", name,
        " of class ", scope, ""]
  | malformedConstraint kind expected supplied =>
    [(malformedConstraint kind expected supplied).message]

/-- The error that wording and names tell. Wording without names is about counts. -/
def ofPieces? : List String → Option DeclarationError
  | ["redeclaration of variable ", name, " in class ", owner, ""] =>
    some (duplicateSymbol owner name .variableName)
  | ["redeclaration of constant ", name, " in class ", owner, ""] =>
    some (duplicateSymbol owner name .constantName)
  | ["redeclaration of class ", name, ""] => some (duplicateClass name)
  | ["class ", name, " extends a non-declared class ", superclass, ""] =>
    some (undeclaredSuperclass name superclass)
  | ["relation in class ", owner, " references a non-existent class ", target, ""] =>
    some (undeclaredClass owner target)
  | ["rule in class ", scope, " references a non-existent variable ", name, ""] =>
    some (undeclaredVariable scope name scope)
  | ["relation in class ", referencedFrom, " references a non-existent variable ", name,
      " of class ", scope, ""] =>
    some (undeclaredVariable scope name referencedFrom)
  | [text] => ofCountWords? (splitText ' ' text)
  | _ => none

theorem ofPieces?_pieces (e : DeclarationError) : ofPieces? e.pieces = some e := by
  cases e with
  | duplicateSymbol owner name kind => cases kind <;> simp [pieces, SymbolKind.text, ofPieces?]
  | undeclaredVariable scope name referencedFrom =>
    by_cases h : scope = referencedFrom <;> simp [pieces, h, ofPieces?]
  | malformedConstraint kind expected supplied =>
    simp only [pieces, ofPieces?, splitText_message_malformed, ofCountWords?_countWords]
  | _ => simp [pieces, ofPieces?]

theorem toList_message (e : DeclarationError) :
    e.message.toList = ['\x60'].intercalate (e.pieces.map String.toList) := by
  unfold pieces
  cases e with
  | malformedConstraint => simp
  | undeclaredVariable scope name referencedFrom =>
    unfold message quoted
    by_cases h : scope = referencedFrom <;> simp [h]
  | _ =>
    unfold message quoted
    simp

theorem pieces_ne_nil (e : DeclarationError) : e.pieces ≠ [] := by
  cases e with
  | undeclaredVariable scope name referencedFrom =>
    by_cases h : scope = referencedFrom <;> simp [pieces, h]
  | _ => simp [pieces]

theorem Quotable.notMem_pieces {e : DeclarationError} (h : e.Quotable) :
    ∀ piece ∈ e.pieces, '\x60' ∉ piece.toList := by
  unfold Quotable names at h
  cases e with
  | duplicateSymbol owner name kind =>
    simp only [List.forall_mem_cons] at h
    cases kind <;> simp [pieces, SymbolKind.text, h]
  | undeclaredVariable scope name referencedFrom =>
    simp only [List.forall_mem_cons] at h
    by_cases hsame : scope = referencedFrom <;> simp [pieces, hsame, h]
  | malformedConstraint kind expected supplied =>
    have hdigits := notMem_toDigits (c := '\x60') (by decide)
    unfold pieces message
    cases kind <;> simp [Constraint.Kind.text, hdigits]
  | _ =>
    simp only [List.forall_mem_cons] at h
    simp [pieces, h]

/-- The error that a message is about. -/
def ofMessage? (text : String) : Option DeclarationError := ofPieces? (splitText '\x60' text)

theorem Quotable.ofMessage?_message {e : DeclarationError} (h : e.Quotable) :
    ofMessage? e.message = some e := by
  rw [ofMessage?, splitText_eq e.toList_message e.pieces_ne_nil h.notMem_pieces, ofPieces?_pieces]

/-! ## The main statement -/

variable {a b : DeclarationError}

/-- Two errors have one message only if they are one error, in the same form and with the same
names, kinds and counts. -/
theorem message_inj (ha : a.Quotable) (hb : b.Quotable) : a.message = b.message ↔ a = b := by
  constructor
  · intro h
    have hread : some a = some b := by
      rw [← ha.ofMessage?_message, h, hb.ofMessage?_message]
    exact Option.some.inj hread
  · rintro rfl
    rfl

theorem message_inj_wordyNames :
    (undeclaredClass "Ship" "variable").Quotable ∧
      (undeclaredVariable "class" "variable" "Ship").Quotable ∧
      (undeclaredClass "Ship" "variable").message ≠
        (undeclaredVariable "class" "variable" "Ship").message := by
  have hclass : (undeclaredClass "Ship" "variable").Quotable := by simp [Quotable, names]
  have hvariable : (undeclaredVariable "class" "variable" "Ship").Quotable := by
    simp [Quotable, names]
  exact ⟨hclass, hvariable, fun h => by cases (message_inj hclass hvariable).1 h⟩

/-- With a backtick a name can pass for the end of another one. -/
example :
    (duplicateSymbol "Ship" "name` in class `Crew" .variableName).message =
      (duplicateSymbol "Crew` in class `Ship" "name" .variableName).message := by
  decide +kernel

end DeclarationError

end FuzzyHierarchy
