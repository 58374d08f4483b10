import FuzzyHierarchy.Proofs.Listing.Line

/-
The lines of classes in a listing, one class after another. A line of the listing ends at the first
newline, a class starts with its heading and has its symbols below, and the line of the dependencies
ends them all, so the lines and then the classes can be read off a text.

Main statements: two texts that start with the lines of classes start with the same lines, and the
same lines are those of the same classes.
-/

namespace FuzzyHierarchy

open Listing

/-! ## Lines one after another -/

namespace Listing

/-- The characters of lines that each end with a newline. -/
def render (lines : List Line) : List Char :=
  lines.flatMap fun line => line.text.toList ++ ['\n']

/-- The first line of a text is what stands before the first newline. -/
theorem append_newline_inj {a b rest rest' : List Char} (ha : '\n' ∉ a) (hb : '\n' ∉ b)
    (h : a ++ '\n' :: rest = b ++ '\n' :: rest') : a = b ∧ rest = rest' := by
  have hsplit : ∀ {line : List Char} (rest : List Char), '\n' ∉ line →
      (line ++ '\n' :: rest).splitOnP (· == '\n') = line :: rest.splitOnP (· == '\n') := by
    intro line rest hline
    apply List.splitOnP_append_cons_of_forall_mem
    · intro c hc
      exact beq_false_of_ne fun heq => hline (heq ▸ hc)
    · rfl
  have hlines := congrArg (List.splitOnP (· == '\n')) h
  rw [hsplit rest ha, hsplit rest' hb] at hlines
  obtain ⟨rfl, -⟩ := List.cons.inj hlines
  simpa using h

/-- The lines before the dependencies can be read off a text. -/
theorem eq_of_render_append_eq {xs ys : List Line} {rest rest' : List Char}
    (hxs : ∀ line ∈ xs, line.Readable) (hys : ∀ line ∈ ys, line.Readable)
    (h : render xs ++ ("dependencies".toList ++ '\n' :: rest) =
      render ys ++ ("dependencies".toList ++ '\n' :: rest')) : xs = ys := by
  have hend : '\n' ∉ "dependencies".toList := by decide +kernel
  have hcons : ∀ (line : Line) (lines : List Line) (rest : List Char),
      render (line :: lines) ++ rest = line.text.toList ++ '\n' :: (render lines ++ rest) := by
    simp [render]
  -- a text cannot go on with a line of a class where the other one has the dependencies
  have hstop : ∀ {line : Line} {lines : List Line} {rest rest' : List Char}, line.Readable →
      "dependencies".toList ++ '\n' :: rest ≠ render (line :: lines) ++ rest' := by
    intro line lines rest rest' hline heq
    rw [hcons] at heq
    have hsame := (append_newline_inj hend (Line.newline_notMem_text hline) heq).1
    exact Line.text_ne_dependencies hline (String.toList_inj.1 hsame.symm)
  induction xs generalizing ys with
  | nil =>
    cases ys with
    | nil => rfl
    | cons y ys => exact absurd h (hstop (hys y List.mem_cons_self))
  | cons x xs ih =>
    obtain ⟨hx, hxs⟩ := List.forall_mem_cons.1 hxs
    cases ys with
    | nil => exact absurd h.symm (hstop hx)
    | cons y ys =>
      obtain ⟨hy, hys⟩ := List.forall_mem_cons.1 hys
      rw [hcons, hcons] at h
      obtain ⟨hline, hrest⟩ :=
        append_newline_inj (Line.newline_notMem_text hx) (Line.newline_notMem_text hy) h
      rw [Line.eq_of_text_eq hx hy (String.toList_inj.1 hline), ih hxs hys hrest]

namespace Line

/-- Whether a line starts a class. -/
def isHeading : Line → Bool
  | heading .. => true
  | _ => false

/-- The variable that a line declares. -/
def var? : Line → Option String
  | var name => some name
  | _ => none

/-- The constant that a line declares, with its value. -/
def const? : Line → Option (String × String)
  | const name value => some (name, value)
  | _ => none

/-- The constraint that a line holds. -/
def rule? : Line → Option Constraint
  | rule constraint => some constraint
  | _ => none

end Line

end Listing

/-! ## The lines of classes -/

namespace Registration

variable {x y : Registration} {xs ys : List Registration}

/-- The lines below the heading of a class. -/
def symbolLines (registration : Registration) : List Line :=
  registration.vars.toList.map .var ++
    registration.consts.toList.map (fun entry => .const entry.1 entry.2) ++
    registration.constraints.toList.map .rule

/-- The lines of a class. -/
def lines (registration : Registration) : List Line :=
  .heading registration.hidden registration.name registration.superclass? ::
    registration.symbolLines

theorem isHeading_of_mem_symbolLines {line : Line} (h : line ∈ x.symbolLines) :
    line.isHeading = false := by
  simp only [symbolLines, List.mem_append, List.mem_map] at h
  rcases h with (⟨name, -, rfl⟩ | ⟨entry, -, rfl⟩) | ⟨constraint, -, rfl⟩
  all_goals rfl

/-- The lines of each form give what they declare, in its order. -/
theorem filterMap_symbolLines (registration : Registration) :
    registration.symbolLines.filterMap Line.var? = registration.vars.toList ∧
      registration.symbolLines.filterMap Line.const? = registration.consts.toList ∧
      registration.symbolLines.filterMap Line.rule? = registration.constraints.toList := by
  simp only [symbolLines, List.filterMap_append, List.filterMap_map, Function.comp_def, Line.var?,
    Line.const?, Line.rule?]
  simp

/-- The lines tell the class. -/
theorem eq_of_lines_eq (h : x.lines = y.lines) : x = y := by
  obtain ⟨⟨vars, consts, ⟨constraints⟩, hidden⟩, name, superclass?⟩ := x
  obtain ⟨⟨vars', consts', ⟨constraints'⟩, hidden'⟩, name', superclass?'⟩ := y
  obtain ⟨hheading, hsymbols⟩ := List.cons.inj h
  cases hheading
  obtain ⟨hvars, hconsts, hconstraints⟩ := filterMap_symbolLines
    ⟨⟨vars, consts, ⟨constraints⟩, hidden⟩, name, superclass?⟩
  obtain ⟨hvars', hconsts', hconstraints'⟩ := filterMap_symbolLines
    ⟨⟨vars', consts', ⟨constraints'⟩, hidden⟩, name, superclass?⟩
  rw [hsymbols] at hvars hconsts hconstraints
  cases Variables.ext (hvars.symm.trans hvars')
  cases Constants.ext (hconsts.symm.trans hconsts')
  cases hconstraints.symm.trans hconstraints'
  rfl

/-- Each class ends where the next one starts. -/
theorem eq_of_flatMap_lines_eq (h : xs.flatMap lines = ys.flatMap lines) : xs = ys := by
  have hsymbols : ∀ (call : Registration) (calls : List Registration),
      (call.symbolLines ++ calls.flatMap lines).takeWhile (!·.isHeading) = call.symbolLines := by
    intro call calls
    rw [List.takeWhile_append_of_pos fun line hline => by
      rw [isHeading_of_mem_symbolLines hline]; rfl]
    cases calls with
    | nil => simp
    | cons next calls => simp [lines, Line.isHeading]
  induction xs generalizing ys with
  | nil =>
    cases ys with
    | nil => rfl
    | cons y ys => simp [lines] at h
  | cons x xs ih =>
    cases ys with
    | nil => simp [lines] at h
    | cons y ys =>
      rw [List.flatMap_cons, List.flatMap_cons, lines, lines, List.cons_append,
        List.cons_append] at h
      obtain ⟨hheading, hrest⟩ := List.cons.inj h
      have hlines : x.symbolLines = y.symbolLines := by
        rw [← hsymbols x xs, hrest, hsymbols y ys]
      rw [hlines] at hrest
      have hsame : x.lines = y.lines := by rw [lines, lines, hheading, hlines]
      rw [eq_of_lines_eq hsame, ih (List.append_cancel_left hrest)]

end Registration

end FuzzyHierarchy
