import FuzzyHierarchy.Listing.Basic
import Mathlib.Data.List.Basic

/-
The lines of a class in a listing. Nothing is escaped, but as long as names and labels are words, a
line can be split at the marks between words, and then the words tell which form it has.

Main statement: no two lines have the same text, although the words that the listing puts into a
line may be names as well.
-/

namespace FuzzyHierarchy

namespace Listing

/-! ## Words -/

/-- The characters that a listing puts between words. -/
def marks : List Char := [' ', '\n', '.', ',', '(', ')', '=']

/-- A text that is not empty and has no mark in it. -/
structure IsWord (text : String) : Prop where
  ne_empty : text ≠ ""
  no_marks : ∀ c ∈ text.toList, c ∉ marks

/-- What stands between the marks of a text. -/
def words (text : String) : List (List Char) := text.toList.splitOnP (· ∈ marks)

variable {text : String} {c : Char}

theorem isWord_iff : IsWord text ↔ text ≠ "" ∧ text.toList.all (· ∉ marks) = true := by
  simp only [List.all_eq_true, decide_eq_true_iff]
  exact ⟨fun h => ⟨h.ne_empty, h.no_marks⟩, fun h => ⟨h.1, h.2⟩⟩

-- a quantifier over characters would be decided by going through all of them
instance (text : String) : Decidable (IsWord text) := decidable_of_iff' _ isWord_iff

theorem IsWord.newline_notMem (h : IsWord text) : '\n' ∉ text.toList := fun hmem =>
  h.no_marks _ hmem (by decide)

theorem splitOnP_word (h : IsWord text) : text.toList.splitOnP (· ∈ marks) = [text.toList] := by
  apply List.splitOnP_eq_singleton
  simpa using h.no_marks

theorem splitOnP_word_append (h : IsWord text) (hc : c ∈ marks) (rest : List Char) :
    (text.toList ++ c :: rest).splitOnP (· ∈ marks) =
      text.toList :: rest.splitOnP (· ∈ marks) := by
  apply List.splitOnP_append_cons_of_forall_mem
  · simpa using h.no_marks
  · simpa using hc

theorem splitOnP_mark (hc : c ∈ marks) (rest : List Char) :
    (c :: rest).splitOnP (· ∈ marks) = [] :: rest.splitOnP (· ∈ marks) := by
  rw [List.splitOnP_cons_eq_if_modifyHead, if_pos (by simpa using hc)]

theorem splitOnP_no_mark (hc : c ∉ marks) (rest : List Char) :
    (c :: rest).splitOnP (· ∈ marks) = (rest.splitOnP (· ∈ marks)).modifyHead (c :: ·) := by
  rw [List.splitOnP_cons_eq_if_modifyHead, if_neg (by simpa using hc)]

end Listing

open Listing

/-! ## Constraints -/

namespace Constraint

/-- The names that a constraint uses, and its label. -/
def names (constraint : Constraint) : List String :=
  constraint.ownVariables ++ constraint.target?.toList ++ constraint.targetVariables ++
    [constraint.label]

/-- The words of a constraint's text, with an empty one where two marks meet. -/
def words : Constraint → List String
  | simpleFeature own label => [own, "is", label]
  | simpleRelation target remote own label =>
    [own, "is", label, "relative", "to", target, remote]
  | complexRelation target remote first second label =>
    ["", first, "", second, "", "is", label, "relative", "to", target, remote]
  | inverseRelation own target first second label =>
    [own, "is", label, "relative", "to", target, "", first, "", second, ""]

variable {x y : Constraint}

theorem words_text (h : ∀ name ∈ x.names, IsWord name) :
    Listing.words x.text = x.words.map String.toList := by
  cases x
  all_goals
    simp [names, ownVariables, target?, targetVariables, label] at h
    simp (disch := first | simp only [h] | decide) [Listing.words, text, words, splitOnP_word,
      splitOnP_word_append, splitOnP_mark, splitOnP_no_mark]

/-- The words tell the constraint. -/
theorem eq_of_words_eq (hx : ∀ name ∈ x.names, IsWord name) (hy : ∀ name ∈ y.names, IsWord name)
    (h : x.words = y.words) : x = y := by
  cases x <;> cases y
  -- these have as many words, but only the ones with two own variables start with an empty one
  case complexRelation.inverseRelation =>
    exact absurd (List.cons.inj h).1.symm (hy _ (by simp [names, ownVariables])).ne_empty
  case inverseRelation.complexRelation =>
    exact absurd (List.cons.inj h).1 (hx _ (by simp [names, ownVariables])).ne_empty
  all_goals simp_all [words]

/-- No constraint is taken for a constant: where the first word is a name, the third is the label.
-/
theorem words_ne_const {name : List Char} {rest : List (List Char)}
    (h : ∀ name ∈ x.names, IsWord name) :
    x.words.map String.toList ≠ "const".toList :: name :: [] :: rest := by
  intro heq
  have hlabel : x.label ≠ "" := (h x.label (by simp [names])).ne_empty
  cases x with
  | complexRelation => simp [words] at heq
  | simpleFeature | simpleRelation | inverseRelation => simp_all [words, label]

theorem newline_notMem_text (h : ∀ name ∈ x.names, IsWord name) : '\n' ∉ x.text.toList := by
  have hnames : ∀ name ∈ x.names, '\n' ∉ name.toList := fun name hname =>
    (h name hname).newline_notMem
  cases x
  all_goals
    simp [names, ownVariables, target?, targetVariables, label] at hnames
    simp [text, hnames]

end Constraint

/-! ## Lines -/

namespace Listing

/-- A line of a class. -/
inductive Line where
  | heading (hidden : Bool) (name : String) (superclass? : Option String)
  | var (name : String)
  | const (name value : String)
  | rule (constraint : Constraint)

namespace Line

/-- The text of a line, without its end. -/
def text : Line → String
  | heading hidden name superclass? =>
    (if hidden then "hidden " else "") ++ "class " ++ name ++ superclass?.elim "" (" : " ++ ·)
  | var name => indent ++ "var " ++ name
  | const name value => indent ++ "const " ++ name ++ " = " ++ value
  | rule constraint => indent ++ constraint.text

/-- The names in a line are words, and the value of a constant stays in its line. -/
def Readable : Line → Prop
  | heading _ name superclass? => IsWord name ∧ ∀ superclass ∈ superclass?, IsWord superclass
  | var name => IsWord name
  | const name value => IsWord name ∧ '\n' ∉ value.toList
  | rule constraint => ∀ name ∈ constraint.names, IsWord name

/-- The words of a line's text. The value of a constant is not made of words only. -/
def words : Line → List (List Char)
  | heading hidden name superclass? =>
    ((if hidden then ["hidden"] else []) ++ ["class", name] ++
      superclass?.elim [] ([":", ·])).map String.toList
  | var name => ["", "", "", "", "var", name].map String.toList
  | const name value =>
    ["", "", "", "", "const", name, "", ""].map String.toList ++ Listing.words value
  | rule constraint => (["", "", "", ""] ++ constraint.words).map String.toList

variable {a b : Line}

theorem words_text (h : a.Readable) : Listing.words a.text = a.words := by
  cases a with
  | heading hidden name superclass? =>
    obtain ⟨hname, hsuper⟩ := h
    cases superclass? with
    | none =>
      cases hidden <;>
        simp (disch := first | assumption | decide) [Listing.words, text, words, splitOnP_word,
          splitOnP_mark, splitOnP_no_mark]
    | some superclass =>
      have hsuper : IsWord superclass := hsuper superclass rfl
      cases hidden <;>
        simp (disch := first | assumption | decide) [Listing.words, text, words, splitOnP_word,
          splitOnP_word_append, splitOnP_mark, splitOnP_no_mark]
  | var name =>
    have hname : IsWord name := h
    simp (disch := first | assumption | decide) [Listing.words, text, words, indent, splitOnP_word,
      splitOnP_mark, splitOnP_no_mark]
  | const name value =>
    obtain ⟨hname, -⟩ := h
    simp (disch := first | assumption | decide) [Listing.words, text, words, indent,
      splitOnP_word_append, splitOnP_mark, splitOnP_no_mark]
  | rule constraint =>
    have hwords := Constraint.words_text h
    rw [Listing.words] at hwords
    simp (disch := decide) [Listing.words, text, words, indent, splitOnP_mark, hwords]

/-- The words tell the line, but for the value of a constant, and that is all that is left of the
text then. -/
theorem eq_of_text_eq (ha : a.Readable) (hb : b.Readable) (h : a.text = b.text) : a = b := by
  have hwords : a.words = b.words := by rw [← words_text ha, ← words_text hb, h]
  cases a with
  | heading hidden name superclass? =>
    cases b with
    | heading hidden' name' superclass?' =>
      cases hidden <;> cases hidden' <;> cases superclass? <;> cases superclass?' <;>
        simp_all [words, String.toList_inj]
    | _ => cases hidden <;> simp [words] at hwords
  | var name =>
    cases b with
    | heading hidden => cases hidden <;> simp [words] at hwords
    | var => simpa [words, String.toList_inj] using hwords
    | const => simp [words] at hwords
    | rule constraint => cases constraint <;> simp [words, Constraint.words] at hwords
  | const name value =>
    cases b with
    | heading hidden => cases hidden <;> simp [words] at hwords
    | var => simp [words] at hwords
    | const name' value' =>
      simp [words, String.toList_inj] at hwords
      obtain ⟨rfl, -⟩ := hwords
      simpa [text] using h
    | rule constraint =>
      exact absurd (by simpa [words] using hwords.symm) (Constraint.words_ne_const hb)
  | rule constraint =>
    cases b with
    | heading hidden => cases hidden <;> simp [words] at hwords
    | var => cases constraint <;> simp [words, Constraint.words] at hwords
    | const name value =>
      exact absurd (by simpa [words] using hwords) (Constraint.words_ne_const ha)
    | rule other =>
      have hsame : constraint.words.map String.toList = other.words.map String.toList := by
        simpa [words] using hwords
      have hinj : Function.Injective String.toList := fun _ _ => String.toList_inj.1
      rw [Constraint.eq_of_words_eq ha hb (List.map_injective_iff.2 hinj hsame)]

theorem newline_notMem_text (h : a.Readable) : '\n' ∉ a.text.toList := by
  cases a with
  | heading hidden name superclass? =>
    have hname := h.1.newline_notMem
    cases superclass? with
    | none => cases hidden <;> simp [text, hname]
    | some superclass =>
      have hsuper := (h.2 superclass rfl).newline_notMem
      cases hidden <;> simp [text, hname, hsuper]
  | var name =>
    have hname : IsWord name := h
    simp [text, indent, hname.newline_notMem]
  | const name value => simp [text, indent, h.1.newline_notMem, h.2]
  | rule constraint => simp [text, indent, Constraint.newline_notMem_text h]

/-- The lines of the classes end where the dependencies start. -/
theorem text_ne_dependencies (h : a.Readable) : a.text ≠ "dependencies" := by
  intro heq
  have hone : a.words.length = 1 := by
    rw [← words_text h, heq]
    decide +kernel
  cases a with
  | heading hidden name superclass? => cases hidden <;> cases superclass? <;> simp [words] at hone
  | _ => simp [words] at hone

end Line

end Listing

end FuzzyHierarchy
