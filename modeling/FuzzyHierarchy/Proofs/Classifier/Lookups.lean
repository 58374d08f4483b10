import FuzzyHierarchy.Proofs.Classifier.Finalized
import FuzzyHierarchy.Proofs.Listing.Writing
import FuzzyHierarchy.Proofs.Registry.Nearest

/-
Asking a finalized classifier. A question about an id looks at most whether this one id is held, and
fetches all other classes by ids that it takes from the classifier itself: from a class, from the
table of the names, or from the schedule.

Main statement: no question meets a fault, whatever the id is, and what is told of an id that is not
held is that there is nothing. Only fetching by such an id is a fault.
-/

namespace FuzzyHierarchy

namespace Registry

variable {registry : Registry} {id : ClassId} {fault : Fault}

/-! ## Ids from outside -/

/-- What a registry tells of an id that it does not hold. -/
structure Foreign (registry : Registry) (id : ClassId) : Prop where
  get? : registry.get? id = none
  superclassOf? : registry.superclassOf? id = .ok none
  ancestors : registry.ancestors id = .ok []
  findVariable : ∀ name, registry.findVariable id name = .ok none
  findConstant : ∀ name, registry.findConstant id name = .ok none

theorem foreign_of_not_holds (h : ¬ registry.holds id = true) : registry.Foreign id := by
  have hget : registry.get? id = none := by simpa [holds] using h
  have hlineage : registry.lineage id = .ok [] := by
    unfold lineage
    rw [if_neg h]
  constructor
  · exact hget
  · simp [superclassOf?, hget]
  · simp [ancestors, hget]
  · intro name
    simp [findVariable, hlineage]
  · intro name
    simp [findConstant, hlineage]

namespace WellFormed

variable (hwf : registry.WellFormed)

include hwf

/-- A class is fetched unless no name leads to its id. -/
theorem fetch_eq_error_iff :
    registry.fetch id = .error fault ↔ fault = .notHeld id ∧ id ∉ registry.ids := by
  rw [hwf.mem_ids_iff]
  unfold fetch holds
  cases registry.get? id with
  | none => simp [eq_comm]
  | some found => simp

/-- The questions about an id are answered, be it held or not. -/
theorem exists_answers (id : ClassId) :
    (∃ superclass?, registry.superclassOf? id = .ok superclass?) ∧
      (∃ above, registry.ancestors id = .ok above) ∧
      ∀ name, (∃ scope?, registry.findVariable id name = .ok scope?) ∧
        ∃ found?, registry.findConstant id name = .ok found? := by
  by_cases hheld : registry.holds id = true
  · obtain ⟨cls, hget⟩ := holds_iff.1 hheld
    obtain ⟨superclass?, hsuper, -⟩ := hwf.exists_superclassOf? hget
    obtain ⟨upper, hupper⟩ := hwf.exists_lineage_superclass hget
    have hall : Lineage registry (some id) ((id, cls) :: upper) := .above hget hupper
    exact ⟨⟨superclass?, hsuper⟩, ⟨_, hwf.ancestors_eq_ok hget hupper⟩, fun name =>
      ⟨⟨_, hwf.findVariable_eq_ok hall name⟩, ⟨_, hwf.findConstant_eq_ok hall name⟩⟩⟩
  · have h := foreign_of_not_holds hheld
    exact ⟨⟨_, h.superclassOf?⟩, ⟨_, h.ancestors⟩, fun name =>
      ⟨⟨_, h.findVariable name⟩, ⟨_, h.findConstant name⟩⟩⟩

end WellFormed

end Registry

namespace Classifier

variable {classifier : Classifier}

/-- Asking a finalized classifier meets no fault. It can be asked about any id, and for an id of
none of its classes there is nothing above and nothing to find. The classes can be gone through in
the order of registration and in that of evaluation, each can be had by its name, and the classifier
can be listed, to any writer that meets no fault of its own. A fault is only met by fetching with an
id of none of its classes, and then it always is. -/
theorem lookups_meet_no_fault (h : classifier.Finalized) :
    (∀ id, (∃ superclass?, classifier.superclassOf? id = .ok superclass?) ∧
      (∃ above, classifier.ancestors id = .ok above) ∧
      ∀ name, (∃ scope?, classifier.findVariable id name = .ok scope?) ∧
        ∃ found?, classifier.findConstant id name = .ok found?) ∧
    (∀ id, id ∉ classifier.ids →
      classifier.Foreign id ∧ classifier.schedule.isCyclic id = false) ∧
    (∃ entries, classifier.entries = .ok entries) ∧
    (∃ classes, classifier.visible = .ok classes) ∧
    (∀ name, ∃ cls?, classifier.find? name = .ok cls?) ∧
    (∃ classes, classifier.evaluationOrder = .ok classes) ∧
    (∃ text, classifier.text = .ok text) ∧
    (∀ limit, ∃ written, classifier.writeListing limit = .ok written) ∧
    (∀ (σ ε : Type) (put : String → Writing σ ε Unit),
      (∀ piece s, ∃ answer, (put piece).run.run s = .ok answer) →
      ∀ s, ∃ answer, (classifier.write put).run.run s = .ok answer) ∧
    ∀ id fault, classifier.fetch id = .error fault ↔
      fault = .notHeld id ∧ id ∉ classifier.ids := by
  have hwf := h.wellFormed
  have hheld : ∀ id ∈ classifier.schedule.order, classifier.holds id = true :=
    fun id => (h.scheduled.mem_order id).1
  obtain ⟨text, -, htext, -⟩ := Listing.exists_text hwf hheld
  obtain ⟨pieces, hlisting, -⟩ := exists_of_map_eq_ok htext
  refine ⟨hwf.exists_answers, fun id hid => ?_, ⟨_, hwf.entries_eq⟩, ⟨_, hwf.visible_eq⟩,
    hwf.exists_find?, Registry.exists_mapM_fetch hheld, ⟨text, htext⟩, fun limit => ?_,
    fun σ ε put hput s => ?_, fun id fault => hwf.fetch_eq_error_iff⟩
  · rw [hwf.mem_ids_iff] at hid
    refine ⟨Registry.foreign_of_not_holds hid, ?_⟩
    rw [Schedule.isCyclic, ← Bool.not_eq_true, List.contains_iff_mem, h.scheduled.mem_cyclic]
    exact fun hback => hid hback.holds
  · -- the writer is given the pieces that the text is made of
    rw [Classifier.writeListing, hlisting]
    exact ⟨_, rfl⟩
  · rw [Listing.write_eq hlisting put]
    exact Listing.exists_run_forM hput pieces s

/-- A figure, which is not shown, and a circle, which is one. -/
def figures : Blueprint :=
  let figure : Registration := {
    name := "Figure"
    hidden := true
    vars := ⟨["area"], List.nodup_singleton _⟩ }
  let circle : Registration := { name := "Circle", superclass? := some "Figure" }
  (({} : Blueprint).tryRegister figure).tryRegister circle

/-- There is nothing to tell of a third class, but the classifier can be asked about it. -/
theorem lookups_meet_no_fault_figures :
    ∃ classifier : Classifier, figures.finalize = .ok (.ok classifier) ∧
      classifier.Foreign (.entry 2) ∧ classifier.Foreign .null ∧
      classifier.schedule.isCyclic (.entry 2) = false ∧
      classifier.fetch (.entry 2) = .error (.notHeld (.entry 2)) ∧
      (∀ fault, classifier.fetch (.entry 1) ≠ .error fault) ∧
      (∃ classes text, classifier.evaluationOrder = .ok classes ∧ classifier.text = .ok text) ∧
      ∃ answer, (classifier.write Listing.append).run.run "" = .ok answer := by
  have hreachable : figures.Reachable := .tryRegister _ (.tryRegister _ (.start _))
  obtain ⟨classifier, hfinalize, hids⟩ := Blueprint.exists_finalize_of_map
    (show figures.finalize.map (·.map (·.ids)) = .ok (.ok [.entry 0, .entry 1]) by decide +kernel)
  obtain ⟨-, hforeign, -, -, -, ⟨classes, hclasses⟩, ⟨text, htext⟩, -, hwrite, hfetch⟩ :=
    lookups_meet_no_fault ⟨figures, hreachable, .inl hfinalize⟩
  rw [hids] at hforeign hfetch
  exact ⟨classifier, hfinalize, (hforeign (.entry 2) (by decide)).1,
    (hforeign .null (by decide)).1, (hforeign (.entry 2) (by decide)).2,
    (hfetch _ _).2 ⟨rfl, by decide⟩, fun fault hfault => ((hfetch _ _).1 hfault).2 (by decide),
    ⟨classes, text, hclasses, htext⟩, hwrite _ _ Listing.append (fun _ _ => ⟨_, rfl⟩) ""⟩

end Classifier

end FuzzyHierarchy
