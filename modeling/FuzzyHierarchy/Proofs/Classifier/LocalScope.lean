import FuzzyHierarchy.Proofs.Classifier.Finalized
import FuzzyHierarchy.Proofs.Registry.Nearest

/-
The two ways of looking a variable up. A constraint is checked against what a class declares itself,
and evaluated with a lookup that goes on to the classes above. Redeclaring a variable hides those
above, so the two agree on everything that passes the check.

Main statement: in a finalized classifier a variable of a constraint is always found in the very
class that has to declare it, and where one is only found above this class, or not at all,
finalizing fails.
-/

namespace FuzzyHierarchy

namespace Registry

/-- A lookup from the class does not find the variable there, but above it or nowhere. -/
def FindsElsewhere (registry : Registry) (id : ClassId) (name : String) : Prop :=
  registry.findVariable id name = .ok none ∨
    ∃ above ancestor scope, registry.ancestors id = .ok above ∧ ancestor ∈ above ∧
      registry.get? ancestor = some scope ∧ registry.findVariable id name = .ok (some scope)

/-- One of the variables of a constraint, own or of the target, is not found in the class that has
to declare it. -/
def UsesElsewhere (registry : Registry) (id : ClassId) (constraint : Constraint) : Prop :=
  (∃ name ∈ constraint.ownVariables, registry.FindsElsewhere id name) ∨
    ∃ target ∈ constraint.target?, registry.idOf? target = none ∨
      ∃ targetId, registry.idOf? target = some targetId ∧
        ∃ name ∈ constraint.targetVariables, registry.FindsElsewhere targetId name

/-- Every variable of a constraint is found in the class that has to declare it: the own variables
in the class `cls`, which holds the id, and those of the target in the class of this name. -/
structure BindsInPlace (registry : Registry) (id : ClassId) (cls : FuzzyClass)
    (constraint : Constraint) : Prop where
  own : ∀ name ∈ constraint.ownVariables, registry.findVariable id name = .ok (some cls)
  target : ∀ target ∈ constraint.target?, ∃ targetId scope,
    registry.idOf? target = some targetId ∧ registry.get? targetId = some scope ∧
      scope.name = target ∧
      ∀ name ∈ constraint.targetVariables, registry.findVariable targetId name = .ok (some scope)

namespace WellFormed

variable {registry : Registry} {cls : FuzzyClass} {id : ClassId} {name : String}
  {constraint : Constraint}

/-! ## One variable -/

/-- A lookup ends in the class itself exactly when the class declares the variable. -/
theorem findVariable_eq_self_iff (hwf : registry.WellFormed)
    (hget : registry.get? id = some cls) :
    registry.findVariable id name = .ok (some cls) ↔ name ∈ cls.vars := by
  obtain ⟨upper, hupper⟩ := hwf.exists_lineage_superclass hget
  rw [hwf.findVariable_eq_ok (.above hget hupper), Except.ok.injEq, List.map_cons]
  constructor
  · intro hfind
    simpa [FuzzyClass.declares] using List.find?_some hfind
  · intro hvar
    rw [List.find?_cons_of_pos (by simpa [FuzzyClass.declares] using hvar)]

theorem findsElsewhere_iff (hwf : registry.WellFormed) (hget : registry.get? id = some cls) :
    registry.FindsElsewhere id name ↔ registry.findVariable id name ≠ .ok (some cls) := by
  obtain ⟨upper, hupper⟩ := hwf.exists_lineage_superclass hget
  have hall : Lineage registry (some id) ((id, cls) :: upper) := .above hget hupper
  have hancestors := hwf.ancestors_eq_ok hget hupper
  constructor
  · rintro (hnone | ⟨above, ancestor, scope, habove, hmem, hscope, hfound⟩) hself
    · rw [hnone] at hself
      cases hself
    · -- an ancestor holds another id, so it is another class
      cases hancestors.symm.trans habove
      cases hself.symm.trans hfound
      obtain rfl := hwf.get?_inj hget hscope
      exact (List.nodup_cons.1 (hall.nodup_ids hwf)).1 hmem
  · intro hother
    have hfind := hwf.findVariable_eq_ok hall name
    rcases hfound : (((id, cls) :: upper).map Prod.snd).find? (·.declares name) with _ | scope
    · exact .inl (hfind.trans (congrArg Except.ok hfound))
    · rw [hfound] at hfind
      obtain ⟨⟨ancestor, _⟩, hmem, rfl⟩ := List.mem_map.1 (List.mem_of_find?_eq_some hfound)
      rcases List.mem_cons.1 hmem with heq | hmem
      · cases heq
        exact absurd hfind hother
      · exact .inr ⟨_, ancestor, _, hancestors, List.mem_map_of_mem hmem,
          hupper.get?_of_mem _ hmem, hfind⟩

/-! ## The variables of a constraint -/

/-- What passes the check is what binds in place. -/
theorem bindsInPlace_iff (hwf : registry.WellFormed) (hget : registry.get? id = some cls) :
    registry.BindsInPlace id cls constraint ↔
      ∀ reference ∈ constraint.references, registry.Resolves cls reference := by
  rw [Constraint.forall_mem_references_iff]
  constructor
  · intro h
    refine ⟨fun name hname => (hwf.findVariable_eq_self_iff hget).1 (h.own name hname),
      fun target htarget => ?_⟩
    obtain ⟨targetId, scope, -, hscope, rfl, hvars⟩ := h.target target htarget
    have hmem := mem_toList_of_get? hscope
    refine ⟨hwf.mem_names_iff.2 ⟨scope, hmem, rfl⟩, fun name hname => ⟨scope, hmem, rfl, ?_⟩⟩
    exact (hwf.findVariable_eq_self_iff hscope).1 (hvars name hname)
  · rintro ⟨hown, htarget⟩
    refine ⟨fun name hname => (hwf.findVariable_eq_self_iff hget).2 (hown name hname),
      fun target hmem => ?_⟩
    obtain ⟨hregistered, hvars⟩ := htarget target hmem
    obtain ⟨targetId, hid⟩ := exists_idOf?_of_mem_names hregistered
    obtain ⟨scope, hscope, hname⟩ := hwf.idOf?_eq_some_iff.1 hid
    refine ⟨targetId, scope, hid, hscope, hname, fun name hvar => ?_⟩
    obtain ⟨other, hother, hsame, hvar⟩ := hvars name hvar
    obtain rfl := hwf.eq_of_name_eq hother (mem_toList_of_get? hscope) (hsame.trans hname.symm)
    exact (hwf.findVariable_eq_self_iff hscope).2 hvar

theorem usesElsewhere_iff (hwf : registry.WellFormed) (hget : registry.get? id = some cls) :
    registry.UsesElsewhere id constraint ↔ ¬ registry.BindsInPlace id cls constraint := by
  constructor
  · rintro (⟨name, hname, helsewhere⟩ | ⟨target, htarget, hid⟩) h
    · exact (hwf.findsElsewhere_iff hget).1 helsewhere (h.own name hname)
    · obtain ⟨targetId, scope, hfound, hscope, -, hvars⟩ := h.target target htarget
      rcases hid with hnone | ⟨_, hid, name, hname, helsewhere⟩
      · rw [hnone] at hfound
        cases hfound
      · cases hfound.symm.trans hid
        exact (hwf.findsElsewhere_iff hscope).1 helsewhere (hvars name hname)
  · intro h
    by_contra hnot
    refine h ⟨fun name hname => ?_, fun target htarget => ?_⟩
    · by_contra hother
      exact hnot (.inl ⟨name, hname, (hwf.findsElsewhere_iff hget).2 hother⟩)
    · rcases hid : registry.idOf? target with _ | targetId
      · exact absurd (.inr ⟨target, htarget, .inl hid⟩) hnot
      · obtain ⟨scope, hscope, hname⟩ := hwf.idOf?_eq_some_iff.1 hid
        refine ⟨targetId, scope, rfl, hscope, hname, fun name hvar => ?_⟩
        by_contra hother
        exact hnot (.inr ⟨target, htarget, .inr ⟨targetId, hid, name, hvar,
          (hwf.findsElsewhere_iff hscope).2 hother⟩⟩)

/-- A registry is inconsistent exactly when some constraint does not bind in place. -/
theorem not_consistent_iff (hwf : registry.WellFormed) :
    ¬ registry.Consistent ↔ ∃ id cls constraint, registry.get? id = some cls ∧
      constraint ∈ cls.constraints.toList ∧ registry.UsesElsewhere id constraint := by
  constructor
  · intro h
    by_contra hnot
    refine h fun cls hcls constraint hconstraint => ?_
    obtain ⟨id, hget⟩ := exists_get?_of_mem hcls
    rw [← hwf.bindsInPlace_iff hget]
    by_contra hbinds
    exact hnot ⟨id, cls, constraint, hget, hconstraint, (hwf.usesElsewhere_iff hget).2 hbinds⟩
  · rintro ⟨id, cls, constraint, hget, hconstraint, helsewhere⟩ hconsistent
    exact (hwf.usesElsewhere_iff hget).1 helsewhere ((hwf.bindsInPlace_iff hget).2
      (hconsistent cls (mem_toList_of_get? hget) constraint hconstraint))

end WellFormed

end Registry

/-! ## The main statement, with a variable that is declared again as an example -/

namespace Blueprint

variable {blueprint : Blueprint}

/-- In a finalized classifier every variable of a constraint is found in the class that has to
declare it, which is all that the check of a constraint asks for. Finalizing fails exactly when some
constraint uses a variable that is found above this class only, or nowhere. -/
theorem variables_found_in_place (hreachable : blueprint.Reachable) :
    (∀ classifier, (blueprint.finalize = .ok (.ok classifier) ∨
        ∃ report later, blueprint.finalizeReporting report = .ok (some classifier, later)) →
      ∀ id cls constraint, classifier.get? id = some cls → constraint ∈ cls.constraints.toList →
        classifier.BindsInPlace id cls constraint) ∧
    (∀ id cls constraint, blueprint.registry.get? id = some cls →
      ((∃ dependency?, blueprint.registry.checkConstraint cls constraint = .ok (.ok dependency?)) ↔
        blueprint.registry.BindsInPlace id cls constraint)) ∧
    ((∃ violation, blueprint.finalize = .ok (.error violation)) ↔
      ∃ id cls constraint, blueprint.registry.get? id = some cls ∧
        constraint ∈ cls.constraints.toList ∧ blueprint.registry.UsesElsewhere id constraint) ∧
    ∀ report, (∃ later, blueprint.finalizeReporting report = .ok (none, later)) ↔
      ∃ id cls constraint, blueprint.registry.get? id = some cls ∧
        constraint ∈ cls.constraints.toList ∧ blueprint.registry.UsesElsewhere id constraint := by
  have hwf := hreachable.wellFormed
  have hviolations : blueprint.registry.violations ≠ [] ↔ _ :=
    Registry.violations_eq_nil_iff.not.trans hwf.not_consistent_iff
  refine ⟨fun classifier hgiven id cls constraint hget hconstraint => ?_,
    fun id cls constraint hget => ?_, ?_, fun report => ?_⟩
  · have h : classifier.Finalized := ⟨blueprint, hreachable, hgiven⟩
    exact (h.wellFormed.bindsInPlace_iff hget).2
      (h.consistent cls (Registry.mem_toList_of_get? hget) constraint hconstraint)
  · rw [hwf.bindsInPlace_iff hget, ← Registry.violation?_eq_none_iff, hwf.checkConstraint_eq]
    cases blueprint.registry.violation? cls constraint <;> simp
  · exact (exists_finalize_error_iff_violations hwf).trans hviolations
  · exact (exists_finalizeReporting_none_iff_violations hwf report).trans hviolations

/-- The own age matches a label relative to the age of an heir. -/
def olderThanHeir : Constraint := .simpleRelation "Heir" "age" "age" "older"

/-- A person relates to an heir, and an heir is a person with variables of its own. -/
def heirs (vars : Variables) : Blueprint :=
  let person : Registration := {
    name := "Person"
    vars := ⟨["age"], List.nodup_singleton _⟩
    constraints := ⟨[olderThanHeir]⟩ }
  let heir : Registration := { name := "Heir", superclass? := some "Person", vars, hidden := true }
  (({} : Blueprint).tryRegister person).tryRegister heir

/-- A person relates to the age of an heir where an heir declares one. An heir without one is
refused, although a lookup finds the age of the person. -/
theorem variables_found_in_place_heirs :
    (∃ (classifier : Classifier) (heir : FuzzyClass),
      (heirs ⟨["age"], List.nodup_singleton _⟩).finalize = .ok (.ok classifier) ∧
      classifier.get? (.entry 1) = some heir ∧
      classifier.findVariable (.entry 1) "age" = .ok (some heir)) ∧
    ((heirs ∅).registry.findVariable (.entry 1) "age").map (·.map (·.name)) = .ok (some "Person") ∧
      (∃ violation, (heirs ∅).finalize = .ok (.error violation)) ∧
      ∃ later, (heirs ∅).finalizeReporting ∅ = .ok (none, later) := by
  have hreachable : ∀ vars, (heirs vars).Reachable := fun vars =>
    .tryRegister _ (.tryRegister _ (.start _))
  constructor
  · obtain ⟨classifier, hfinalize, -⟩ := exists_finalize_of_map
      (show (heirs ⟨["age"], List.nodup_singleton _⟩).finalize.map (·.map (·.size)) =
        .ok (.ok 2) by decide +kernel)
    obtain ⟨hregistry, -⟩ := (hreachable _).scheduled hfinalize
    obtain ⟨person, hperson, hconstraints⟩ := Option.map_eq_some_iff.1
      (show ((heirs ⟨["age"], List.nodup_singleton _⟩).registry.get? (.entry 0)).map
        (·.constraints.toList) = some [olderThanHeir] by decide +kernel)
    have hid : (heirs ⟨["age"], List.nodup_singleton _⟩).registry.idOf? "Heir" =
      some (.entry 1) := by decide +kernel
    rw [← hregistry] at hperson hid
    obtain ⟨hbinds, -⟩ := variables_found_in_place (hreachable ⟨["age"], List.nodup_singleton _⟩)
    have hplace := hbinds classifier (.inl hfinalize) (.entry 0) person olderThanHeir hperson
      (by simp [hconstraints])
    obtain ⟨_, heir, htarget, hheir, -, hfound⟩ := hplace.target "Heir" rfl
    cases hid.symm.trans htarget
    exact ⟨classifier, heir, hfinalize, hheir, hfound "age" (List.mem_singleton_self _)⟩
  · obtain ⟨person, hperson, hconstraints⟩ := Option.map_eq_some_iff.1
      (show ((heirs ∅).registry.get? (.entry 0)).map (·.constraints.toList) =
        some [olderThanHeir] by decide +kernel)
    obtain ⟨heir, hheir, hage⟩ := Option.map_eq_some_iff.1
      (show ((heirs ∅).registry.get? (.entry 1)).map (decide <| "age" ∈ ·.vars) =
        some false by decide +kernel)
    have hwf := (hreachable ∅).wellFormed
    have helsewhere : (heirs ∅).registry.UsesElsewhere (.entry 0) olderThanHeir := by
      refine .inr ⟨"Heir", rfl, .inr ⟨.entry 1, by decide +kernel, "age",
        List.mem_singleton_self _, ?_⟩⟩
      rw [hwf.findsElsewhere_iff hheir, ne_eq, hwf.findVariable_eq_self_iff hheir]
      exact of_decide_eq_false hage
    obtain ⟨-, -, hfails, hreports⟩ := variables_found_in_place (hreachable ∅)
    have huses : ∃ id cls constraint, (heirs ∅).registry.get? id = some cls ∧
        constraint ∈ cls.constraints.toList ∧ (heirs ∅).registry.UsesElsewhere id constraint :=
      ⟨.entry 0, person, olderThanHeir, hperson, by simp [hconstraints], helsewhere⟩
    exact ⟨by decide +kernel, hfails.2 huses, (hreports ∅).2 huses⟩

end Blueprint

end FuzzyHierarchy
