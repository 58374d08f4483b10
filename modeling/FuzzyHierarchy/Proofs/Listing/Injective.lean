import FuzzyHierarchy.Proofs.Classifier.Finalized
import FuzzyHierarchy.Proofs.Listing.ClassLines
import FuzzyHierarchy.Proofs.Lists.Related
import FuzzyHierarchy.Proofs.Registry.Registrations

/-
The listing as a faithful picture of a classifier. A text starts with the lines of the classes,
which can be read off it. They tell the registrations, and with them the registry and all that
finalizing makes of it, so the rest of the text does not have to be read.

Main statement: finalized classifiers whose names and labels are words have the same text only if
they are equal.
-/

namespace FuzzyHierarchy

open Listing

/-! ## The lines of a registry -/

namespace Registry

variable {registry : Registry} {cls : FuzzyClass} {id : ClassId}

/-- The names and labels in a registry are words, and the values of constants have no newline. -/
structure Readable (registry : Registry) : Prop where
  names : ∀ cls ∈ registry.toList, IsWord cls.name
  vars : ∀ cls ∈ registry.toList, ∀ name ∈ cls.vars.toList, IsWord name
  consts : ∀ cls ∈ registry.toList, ∀ entry ∈ cls.consts.toList,
    IsWord entry.1 ∧ '\n' ∉ entry.2.toList
  labels : ∀ cls ∈ registry.toList, ∀ constraint ∈ cls.constraints.toList, IsWord constraint.label

instance (registry : Registry) : Decidable registry.Readable :=
  decidable_of_iff
    (∀ cls ∈ registry.toList, IsWord cls.name ∧ (∀ name ∈ cls.vars.toList, IsWord name) ∧
      (∀ entry ∈ cls.consts.toList, IsWord entry.1 ∧ '\n' ∉ entry.2.toList) ∧
      ∀ constraint ∈ cls.constraints.toList, IsWord constraint.label)
    ⟨fun h => ⟨fun cls hcls => (h cls hcls).1, fun cls hcls => (h cls hcls).2.1,
      fun cls hcls => (h cls hcls).2.2.1, fun cls hcls => (h cls hcls).2.2.2⟩,
    fun h cls hcls => ⟨h.names cls hcls, h.vars cls hcls, h.consts cls hcls, h.labels cls hcls⟩⟩

/-- Where every reference resolves, constraints use no names but those that are declared. -/
theorem Readable.constraint_names (h : registry.Readable) (hwf : registry.WellFormed)
    (hconsistent : registry.Consistent) (hcls : cls ∈ registry.toList) {constraint : Constraint}
    (hconstraint : constraint ∈ cls.constraints.toList) :
    ∀ name ∈ constraint.names, IsWord name := by
  obtain ⟨hown, htarget⟩ :=
    Constraint.forall_mem_references_iff.1 (hconsistent cls hcls constraint hconstraint)
  intro name hname
  simp only [Constraint.names, List.mem_append, List.mem_singleton, Option.mem_toList] at hname
  rcases hname with ((hname | hname) | hname) | rfl
  · exact h.vars cls hcls name (hown name hname)
  · obtain ⟨scope, hscope, rfl⟩ := hwf.mem_names_iff.1 (htarget name hname).1
    exact h.names scope hscope
  · cases htarget? : constraint.target? with
    | none =>
      -- only relations have variables of a target
      cases constraint <;> simp_all [Constraint.target?, Constraint.targetVariables]
    | some target =>
      obtain ⟨scope, hscope, -, hvar⟩ := (htarget target htarget?).2 name hname
      exact h.vars scope hscope name hvar
  · exact h.labels cls hcls constraint hconstraint

theorem Readable.lines (h : registry.Readable) (hwf : registry.WellFormed)
    (hconsistent : registry.Consistent) :
    ∀ line ∈ registry.registrations.flatMap Registration.lines, line.Readable := by
  intro line hline
  obtain ⟨registration, hregistration, hline⟩ := List.mem_flatMap.1 hline
  obtain ⟨cls, hcls, rfl⟩ := List.mem_map.1 hregistration
  rcases List.mem_cons.1 hline with rfl | hsymbol
  · refine ⟨h.names cls hcls, fun superclass hsuper => ?_⟩
    obtain ⟨parent, -, hname⟩ := Option.bind_eq_some_iff.1 hsuper
    obtain ⟨above, habove, rfl⟩ := Option.map_eq_some_iff.1 hname
    exact h.names above (mem_toList_of_get? habove)
  · simp only [Registration.symbolLines, List.mem_append, List.mem_map] at hsymbol
    rcases hsymbol with (⟨name, hname, rfl⟩ | ⟨entry, hentry, rfl⟩) | ⟨constraint, hconstraint, rfl⟩
    · exact h.vars cls hcls name hname
    · exact h.consts cls hcls entry hentry
    · exact h.constraint_names hwf hconsistent hcls hconstraint

end Registry

/-! ## The text of a classifier -/

namespace Listing

variable {classifier : Classifier} {cls : FuzzyClass} {id : ClassId}

theorem flatMap_heading (cls : FuzzyClass) (superclass? : Option FuzzyClass) :
    (heading cls superclass?).flatMap String.toList =
      (Line.heading cls.hidden cls.name (superclass?.map (·.name))).text.toList ++ ['\n'] := by
  unfold heading
  cases cls.hidden <;> cases superclass? <;> simp [Line.text]

theorem flatMap_symbols (registry : Registry) (cls : FuzzyClass) :
    (symbols cls).flatMap String.toList = render (registry.registrationOf cls).symbolLines := by
  simp [symbols, render, Registration.symbolLines, List.flatMap_assoc, List.flatMap_map, Line.text,
    Registry.registrationOf]

theorem exists_classLines (hwf : classifier.WellFormed) (hget : classifier.get? id = some cls) :
    ∃ pieces, classLines classifier id cls = .ok pieces ∧
      pieces.flatMap String.toList = render (classifier.registrationOf cls).lines := by
  obtain ⟨superclass?, hsuper, hname⟩ := hwf.exists_superclassOf? hget
  refine ⟨heading cls superclass? ++ symbols cls, bind_of_eq_ok hsuper _, ?_⟩
  rw [List.flatMap_append, flatMap_heading, flatMap_symbols classifier.toRegistry cls, hname]
  rfl

theorem exists_orderWord (hheld : classifier.holds id = true) :
    ∃ word, orderWord classifier id = .ok word := by
  obtain ⟨cls, hget⟩ := Registry.holds_iff.1 hheld
  have hfetch : classifier.fetch id = .ok cls := by rw [Registry.fetch, hget]
  exact ⟨_, bind_of_eq_ok hfetch _⟩

/-- A text starts with the lines of the classes, which the line of the dependencies ends. -/
theorem exists_text (hwf : classifier.WellFormed)
    (hheld : ∀ id ∈ classifier.schedule.order, classifier.holds id = true) :
    ∃ text rest, classifier.text = .ok text ∧ text.toList =
      render (classifier.registrations.flatMap Registration.lines) ++
        ("dependencies".toList ++ '\n' :: rest) := by
  obtain ⟨classes, hclasses⟩ := exists_forall₂_iff.2
    fun entry (hentry : entry ∈ classifier.placed) =>
      exists_classLines hwf (Registry.mem_placed_iff.1 hentry)
  obtain ⟨words, hwords⟩ := exists_forall₂_iff.2 fun id hid => exists_orderWord (hheld id hid)
  have hlisting : classifier.listing =
      .ok (classes.flatten ++ dependencies classifier ++ orderLine words) := by
    rw [Classifier.listing, bind_of_eq_ok hwf.entries_eq,
      bind_of_eq_ok (mapM_eq_ok_iff.2 (hclasses.imp fun _ _ h => h.1)),
      bind_of_eq_ok (mapM_eq_ok_iff.2 hwords)]
    rfl
  have hlines : classes.flatten.flatMap String.toList =
      render (classifier.registrations.flatMap Registration.lines) := by
    calc classes.flatten.flatMap String.toList
        = classes.flatMap fun pieces => pieces.flatMap String.toList := by
          rw [← List.flatMap_id, List.flatMap_assoc]
          rfl
      _ = classifier.placed.flatMap
            fun entry => render (classifier.registrationOf entry.2).lines :=
          (flatMap_eq_flatMap_of_forall₂ hclasses fun _ _ h => h.2.symm).symm
      _ = render (classifier.registrations.flatMap Registration.lines) := by
          rw [render, Registry.registrations, ← Registry.map_snd_placed, List.map_map,
            List.flatMap_map, List.flatMap_assoc]
          rfl
  let edges := classifier.dependencies.flatMap fun dependency => [indent, dependency.text, "\n"]
  refine ⟨_, (edges ++ orderLine words).flatMap String.toList,
    congrArg (String.join <$> ·) hlisting, ?_⟩
  rw [String.toList_join, List.flatMap_append, List.flatMap_append, hlines, dependencies]
  simp [edges]

end Listing

/-! ## The main statement, with two orders of variables as an example -/

namespace Classifier

variable {a b : Classifier}

/-- Finalized classifiers whose names and labels are words, as everything of letters, digits and
underscores is, can be listed, and those that have one text are one classifier: all that they hold
is the same, in the same order. -/
theorem text_injective (ha : a.Finalized) (hb : b.Finalized) (hreadable : a.Readable)
    (hreadable' : b.Readable) :
    ∃ x y, a.text = .ok x ∧ b.text = .ok y ∧ (x = y → a = b) := by
  obtain ⟨x, rest, hx, hlines⟩ :=
    Listing.exists_text ha.wellFormed fun id => (ha.scheduled.mem_order id).1
  obtain ⟨y, rest', hy, hlines'⟩ :=
    Listing.exists_text hb.wellFormed fun id => (hb.scheduled.mem_order id).1
  refine ⟨x, y, hx, hy, ?_⟩
  rintro rfl
  have hclassLines : a.registrations.flatMap Registration.lines =
      b.registrations.flatMap Registration.lines :=
    Listing.eq_of_render_append_eq (hreadable.lines ha.wellFormed ha.consistent)
      (hreadable'.lines hb.wellFormed hb.consistent)
      (hlines.symm.trans hlines')
  have hregistrations : a.registrations = b.registrations :=
    Registration.eq_of_flatMap_lines_eq hclassLines
  exact ha.eq_of_toRegistry_eq hb (ha.wellFormed.eq_of_registrations hb.wellFormed hregistrations)

/-- A class with the words of the listing for names, and a constant with a value of many words. -/
def wordy (vars : Variables) : Blueprint :=
  let call : Registration := {
    name := "class"
    vars
    consts := ⟨[("const", "1 = var is")], List.nodup_singleton _⟩
    constraints := ⟨[.simpleFeature "var" "is"]⟩ }
  ({} : Blueprint).tryRegister call

theorem finalized_wordy (vars : Variables)
    (h : (wordy vars).finalize.map (·.map (·.toList.map (·.vars.toList))) =
      .ok (.ok [vars.toList])) (hreadable : (wordy vars).registry.Readable) :
    ∃ classifier : Classifier, classifier.Finalized ∧ classifier.Readable ∧
      classifier.toList.map (·.vars.toList) = [vars.toList] := by
  obtain ⟨classifier, hfinalize, hvars⟩ := Blueprint.exists_finalize_of_map h
  have hreachable : (wordy vars).Reachable := .tryRegister _ (.start _)
  obtain ⟨hregistry, -⟩ := hreachable.scheduled hfinalize
  exact ⟨classifier, ⟨wordy vars, hreachable, .inl hfinalize⟩, hregistry ▸ hreadable, hvars⟩

theorem text_injective_wordy :
    ∃ a b : Classifier, a.Finalized ∧ b.Finalized ∧
      a.toList.map (·.vars.toList) = [["var", "is"]] ∧
      b.toList.map (·.vars.toList) = [["is", "var"]] ∧
      ∃ x y, a.text = .ok x ∧ b.text = .ok y ∧ x ≠ y := by
  obtain ⟨a, ha, hreadable, hvars⟩ := finalized_wordy ⟨["var", "is"], by decide⟩
    (by decide +kernel) (by decide +kernel)
  obtain ⟨b, hb, hreadable', hvars'⟩ := finalized_wordy ⟨["is", "var"], by decide⟩
    (by decide +kernel) (by decide +kernel)
  obtain ⟨x, y, hx, hy, hsame⟩ := text_injective ha hb hreadable hreadable'
  refine ⟨a, b, ha, hb, hvars, hvars', x, y, hx, hy, fun heq => ?_⟩
  rw [hsame heq, hvars'] at hvars
  exact absurd hvars (by decide)

end Classifier

end FuzzyHierarchy
