import FuzzyHierarchy.Diagnostic
import FuzzyHierarchy.Proofs.Lists.Related

/-
Emitting diagnostics one after another, each made from a list of messages and errors. What counts is
the last message, or the text of the first error where there is no message, and the last error.

Main statement: only a diagnostic of no parts cannot be emitted, and what a report tells of its
diagnostics can be told from the parts that they were made from.
-/

namespace FuzzyHierarchy

open InPlace

namespace Draft

/-- The text of a message. -/
def Part.text? : Part → Option String
  | message text => some text
  | error _ => none

/-- The error that a part attaches. -/
def Part.error? : Part → Option DeclarationError
  | message _ => none
  | error cause => some cause

variable {draft : Draft} {parts : List Part}

/-- The messages among some parts. -/
def texts (parts : List Part) : List String := parts.filterMap Part.text?

/-- The errors among some parts. -/
def errors (parts : List Part) : List DeclarationError := parts.filterMap Part.error?

@[simp] theorem texts_message (text : String) (parts : List Part) :
    texts (.message text :: parts) = text :: texts parts := rfl

@[simp] theorem texts_error (cause : DeclarationError) (parts : List Part) :
    texts (.error cause :: parts) = texts parts := rfl

@[simp] theorem errors_message (text : String) (parts : List Part) :
    errors (.message text :: parts) = errors parts := rfl

@[simp] theorem errors_error (cause : DeclarationError) (parts : List Part) :
    errors (.error cause :: parts) = cause :: errors parts := rfl

theorem getLast?_cons_eq_or {α : Type} (x : α) (xs : List α) :
    (x :: xs).getLast? = xs.getLast?.or (some x) := by
  rw [List.getLast?_cons]
  cases xs.getLast? <;> rfl

/-- The last message replaces what was there, the first error only fills in what is missing, and the
last error is the source. -/
theorem foldl_withPart (draft : Draft) (parts : List Part) :
    parts.foldl withPart draft = {
      level := draft.level
      message? := (texts parts).getLast?.or
        (draft.message?.or ((errors parts).head?.map DeclarationError.message))
      source? := (errors parts).getLast?.or draft.source? } := by
  induction parts generalizing draft with
  | nil => simp [texts, errors]
  | cons part parts ih =>
    rw [List.foldl_cons, ih]
    cases part with
    | message text => simp [withPart, withMessage, getLast?_cons_eq_or]
    | error cause => simp [withPart, withError, getLast?_cons_eq_or]

/-- A part is a message or an error, so only a draft of no parts has neither. -/
theorem texts_and_errors_eq_nil_iff : texts parts = [] ∧ errors parts = [] ↔ parts = [] := by
  cases parts with
  | nil => simp [texts, errors]
  | cons part parts => cases part <;> simp

end Draft

/-- A diagnostic to be emitted: the level at which it is started, and its parts. -/
structure Emission where
  level : Level
  parts : List Draft.Part

namespace Emission

/-- Makes the draft and emits it in place. -/
def perform (emission : Emission) : InPlace Fault Report Unit :=
  Report.emitInPlace (emission.parts.foldl Draft.withPart { level := emission.level })

/-- The answer to an emission. -/
def answer (emission : Emission) : Except Fault Unit :=
  if emission.parts = [] then .error .messageMissing else .ok ()

/-- What a diagnostic made of some parts holds. -/
structure Gives (emission : Emission) (diagnostic : Diagnostic) : Prop where
  level : diagnostic.level = emission.level
  message : some diagnostic.message = (Draft.texts emission.parts).getLast?.or
    ((Draft.errors emission.parts).head?.map DeclarationError.message)
  source : diagnostic.source? = (Draft.errors emission.parts).getLast?

/-- Whether a diagnostic is emitted at the levels `fatal` and `error`. -/
def Grave (emission : Emission) : Prop :=
  emission.parts ≠ [] ∧ (emission.level = .fatal ∨ emission.level = .error)

instance : DecidablePred Grave := fun _ => inferInstanceAs (Decidable (_ ∧ _))

variable {emission : Emission}

theorem effect_perform (emission : Emission) (report : Report) :
    emission.perform.effect report =
      outcome report (report.emitParts emission.level emission.parts) :=
  report.effect_emitInPlace _

/-- Without parts there is no message, and the report stays as it was. -/
theorem effect_of_no_parts (h : emission.parts = []) (report : Report) :
    emission.perform.effect report = (.error .messageMissing, report) := by
  rw [effect_perform, h]
  rfl

/-- With parts there is a message, and a diagnostic is added at the end. -/
theorem effect_of_parts (h : emission.parts ≠ []) (report : Report) :
    ∃ later diagnostic, emission.perform.effect report = (.ok (), later) ∧
      emission.Gives diagnostic ∧ later.toList = report.toList ++ [diagnostic] := by
  have hsome : (Draft.texts emission.parts).getLast?.or
      ((Draft.errors emission.parts).head?.map DeclarationError.message) ≠ none := by
    rw [ne_eq, Option.or_eq_none_iff, List.getLast?_eq_none_iff, Option.map_eq_none_iff,
      List.head?_eq_none_iff]
    exact mt Draft.texts_and_errors_eq_nil_iff.1 h
  obtain ⟨message, hmessage⟩ := Option.ne_none_iff_exists'.1 hsome
  let diagnostic : Diagnostic := {
    level := emission.level
    message
    source? := (Draft.errors emission.parts).getLast? }
  have hfinish : (emission.parts.foldl Draft.withPart { level := emission.level }).finish =
      .ok diagnostic := by
    rw [Draft.foldl_withPart, Draft.finish]
    simp only [Option.none_or, hmessage, Option.or_none]
    rfl
  refine ⟨⟨report.diagnostics.push diagnostic⟩, diagnostic, ?_, ⟨rfl, hmessage.symm, rfl⟩,
    by simp [Report.toList]⟩
  rw [effect_perform, Report.emitParts, Report.emit, bind_of_eq_ok hfinish]
  rfl

theorem answer_perform (emission : Emission) (report : Report) :
    (emission.perform.effect report).1 = emission.answer := by
  by_cases h : emission.parts = []
  · rw [effect_of_no_parts h, answer, if_pos h]
  · obtain ⟨later, -, heffect, -⟩ := effect_of_parts h report
    rw [heffect, answer, if_neg h]

/-- The report gets a diagnostic for each emission with parts, in the order of the emissions. -/
theorem gives_each (emissions : List Emission) :
    List.Forall₂ Gives (emissions.filter (·.parts ≠ [])) (each perform emissions ∅).2.toList := by
  refine each_holds (fun earlier (report : Report) =>
    List.Forall₂ Gives (earlier.filter (·.parts ≠ [])) report.toList) ?_ [] .nil emissions
  intro earlier emission report h
  rw [List.filter_append]
  by_cases hparts : emission.parts = []
  · rw [effect_of_no_parts hparts, List.filter_cons_of_neg (by simp [hparts]), List.filter_nil,
      List.append_nil]
    exact h
  · obtain ⟨later, diagnostic, heffect, hgives, hlater⟩ := effect_of_parts hparts report
    rw [heffect, List.filter_cons_of_pos (by simp [hparts]), List.filter_nil, hlater]
    exact List.rel_append h (.cons hgives .nil)

end Emission

/-! ## What a report tells -/

theorem Level.le_error_iff {level : Level} : level ≤ .error ↔ level = .fatal ∨ level = .error := by
  cases level <;> decide

namespace Report

variable {report : Report} {emissions : List Emission}

theorem errorCount_eq
    (h : List.Forall₂ Emission.Gives (emissions.filter (·.parts ≠ [])) report.toList) :
    report.errorCount = emissions.countP (·.Grave) := by
  have hlevels : (emissions.filter (·.parts ≠ [])).map (·.level) = report.toList.map (·.level) :=
    map_eq_map_of_forall₂ h fun _ _ hgives => hgives.level.symm
  calc report.errorCount
      = (report.toList.map (·.level)).countP (· ≤ .error) := by
        rw [errorCount, ← List.countP_eq_length_filter, List.countP_map]
        rfl
    _ = emissions.countP (·.Grave) := by
        rw [← hlevels, List.countP_map, List.countP_filter]
        refine List.countP_congr fun emission _ => ?_
        simp [Emission.Grave, Level.le_error_iff, and_comm]

theorem errors_eq
    (h : List.Forall₂ Emission.Gives (emissions.filter (·.parts ≠ [])) report.toList) :
    report.errors = emissions.filterMap fun emission => (Draft.errors emission.parts).getLast? := by
  have hsources : (emissions.filter (·.parts ≠ [])).map
      (fun emission => (Draft.errors emission.parts).getLast?) = report.toList.map (·.source?) :=
    map_eq_map_of_forall₂ h fun _ _ hgives => hgives.source.symm
  calc report.errors
      = (report.toList.map (·.source?)).filterMap id := by
        rw [List.filterMap_map]
        rfl
    _ = emissions.filterMap fun emission => (Draft.errors emission.parts).getLast? := by
        rw [← hsources, List.filterMap_map, List.filterMap_filter]
        refine List.filterMap_congr fun emission _ => ?_
        -- an emission that gives no diagnostic has no error either
        by_cases hparts : emission.parts = []
        · simp [hparts, Draft.errors]
        · simp [hparts]

theorem hasErrors_iff
    (h : List.Forall₂ Emission.Gives (emissions.filter (·.parts ≠ [])) report.toList) :
    report.hasErrors = true ↔ ∃ emission ∈ emissions, emission.Grave := by
  rw [hasErrors, decide_eq_true_iff, gt_iff_lt, errorCount_eq h, List.countP_pos_iff]
  simp

end Report

/-! ## The main statement -/

/-- An emission meets a fault exactly when it has no parts, and then it leaves the report as it was;
any other adds one diagnostic at the end, with the last message, or else the text of the first
error, and with the last error as its source. After any emissions, the report counts those at the
levels `fatal` and `error` that were made, has errors when there is one, and lists the sources in
the order of the emissions, at any level. -/
theorem emissions_reported :
    (∀ (emission : Emission) (report : Report),
      emission.perform.effect report =
          outcome report (report.emitParts emission.level emission.parts) ∧
      if emission.parts = [] then
        emission.perform.effect report = (.error .messageMissing, report)
      else
        ∃ later diagnostic, emission.perform.effect report = (.ok (), later) ∧
          emission.Gives diagnostic ∧ later.toList = report.toList ++ [diagnostic]) ∧
    ∀ emissions : List Emission,
      let (answers, report) := each Emission.perform emissions ∅
      answers = emissions.map Emission.answer ∧
      List.Forall₂ Emission.Gives (emissions.filter (·.parts ≠ [])) report.toList ∧
      (report.hasErrors = true ↔ ∃ emission ∈ emissions, emission.Grave) ∧
      report.errorCount = emissions.countP (·.Grave) ∧
      report.errors =
        emissions.filterMap fun emission => (Draft.errors emission.parts).getLast? := by
  refine ⟨fun emission report => ⟨emission.effect_perform report, ?_⟩, fun emissions => ?_⟩
  · split
    · rename_i h
      exact Emission.effect_of_no_parts h report
    · rename_i h
      exact Emission.effect_of_parts h report
  · have hgives := Emission.gives_each emissions
    exact ⟨each_answers_eq_map Emission.answer_perform emissions ∅, hgives,
      Report.hasErrors_iff hgives, Report.errorCount_eq hgives, Report.errors_eq hgives⟩

end FuzzyHierarchy
