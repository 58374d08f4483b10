import FuzzyHierarchy.Proofs.Classifier.Finalized
import FuzzyHierarchy.Proofs.Graph.BackwardEdges

/-
Classifiers that are evaluated in the order of registration. A superclass is always registered
before the classes that extend it, so it depends on the relations alone.

Main statement: the evaluation order is that of registration, without cyclic classes, exactly when
every relation refers to a class registered before its owner.
-/

namespace FuzzyHierarchy

namespace Registry

variable {registry : Registry}

/-- Every relation has a target that is registered before the owner. -/
def RefersBack (registry : Registry) : Prop :=
  ∀ (i : Nat) (cls : FuzzyClass), registry.toList[i]? = some cls →
    ∀ constraint ∈ cls.constraints.toList, ∀ target ∈ constraint.target?,
      ∃ j < i, ∃ other : FuzzyClass, registry.toList[j]? = some other ∧ other.name = target

theorem WellFormed.backward_linkGraph_iff (h : registry.WellFormed)
    (hconsistent : registry.Consistent) : registry.linkGraph.Backward ↔ registry.RefersBack := by
  constructor
  · intro hbackward i cls hcls constraint hconstraint target htarget
    obtain ⟨-, hresolves⟩ := Constraint.forall_mem_references_iff.1
      (hconsistent cls (List.mem_of_getElem? hcls) constraint hconstraint)
    obtain ⟨id, hid⟩ := exists_idOf?_of_mem_names (hresolves target htarget).1
    obtain ⟨other, hget, hname⟩ := h.idOf?_eq_some_iff.1 hid
    obtain ⟨j, rfl, hother⟩ := get?_eq_some_iff.1 hget
    have hlinks : registry.Links (.entry i) (.entry j) := by
      refine ⟨cls, get?_entry.trans hcls, List.mem_append_right _ (List.mem_filterMap.2 ?_)⟩
      exact ⟨constraint, hconstraint, Option.bind_eq_some_iff.2 ⟨target, htarget, hid⟩⟩
    exact ⟨j, hbackward i j (links_entry_iff_edge.1 hlinks), other, hother, hname⟩
  · intro hback u v hedge
    obtain ⟨cls, hget, hmem⟩ := links_entry_iff_edge.2 hedge
    rcases List.mem_append.1 hmem with hsuper | htarget
    · obtain ⟨j, hj, hv⟩ := h.superclass_earlier u cls _ hget (Option.mem_toList.1 hsuper)
      cases hv
      exact hj
    · obtain ⟨constraint, hconstraint, hid⟩ := List.mem_filterMap.1 htarget
      obtain ⟨target, htarget, hid⟩ := Option.bind_eq_some_iff.1 hid
      obtain ⟨j, hj, other, hother, hname⟩ :=
        hback u cls (get?_entry.symm.trans hget) constraint hconstraint target htarget
      -- the target is the one class of its name
      have hsame := h.idOf?_eq_some_iff.2 ⟨other, get?_entry.trans hother, hname⟩
      cases hid.symm.trans hsame
      exact hj

end Registry

/-! ## The main statement, with relations in both directions as an example -/

namespace Classifier

variable {classifier : Classifier}

/-- Exactly the classifiers whose relations all refer to earlier classes are evaluated in the order
of registration and have no cyclic class. -/
theorem order_eq_registered_iff (h : classifier.Finalized) :
    ∃ entries, classifier.entries = .ok entries ∧
      (classifier.schedule.order = entries.map Prod.fst ∧ classifier.schedule.cyclic = [] ↔
        classifier.RefersBack) := by
  refine ⟨_, h.wellFormed.entries_eq, ?_⟩
  obtain ⟨s, hsolved, hclassifier⟩ := h.exists_solved
  have horder : classifier.schedule.order = s.order.toList.map .entry :=
    congrArg (·.schedule.order) hclassifier
  have hcyclic : classifier.schedule.cyclic = s.cyclic.toList.map .entry :=
    congrArg (·.schedule.cyclic) hclassifier
  have hplaces := hsolved.order_eq_range_iff h.wellFormed.closed_linkGraph
  rw [horder, hcyclic, Registry.map_fst_placed,
    (List.map_injective_iff.2 ClassId.entry_injective).eq_iff, List.map_eq_nil_iff,
    ← Registry.size_linkGraph, hplaces, h.wellFormed.backward_linkGraph_iff h.consistent]

/-- A worker has a tool, and a master is a worker who teaches one. -/
def workshop : Blueprint :=
  let tool : Registration := { name := "Tool", vars := ⟨["size"], List.nodup_singleton _⟩ }
  let worker : Registration := {
    name := "Worker"
    vars := ⟨["skill"], List.nodup_singleton _⟩
    constraints := ⟨[.simpleRelation "Tool" "size" "skill" "deft"]⟩ }
  let master : Registration := {
    name := "Master"
    superclass? := some "Worker"
    vars := ⟨["pupils"], List.nodup_singleton _⟩
    constraints := ⟨[.simpleRelation "Worker" "skill" "pupils" "many"]⟩ }
  ((({} : Blueprint).tryRegister tool).tryRegister worker).tryRegister master

/-- A finalized classifier with its entries, known by the ids that are read off it. -/
theorem exists_entries_of_map (blueprint : Blueprint) (order cyclic ids : List ClassId)
    (h : blueprint.finalize.map (·.map fun classifier =>
        (classifier.schedule.order, classifier.schedule.cyclic,
          classifier.entries.map (·.map Prod.fst))) =
      .ok (.ok (order, cyclic, .ok ids))) :
    ∃ classifier entries, blueprint.finalize = .ok (.ok classifier) ∧
      classifier.entries = .ok entries ∧ classifier.schedule.order = order ∧
        classifier.schedule.cyclic = cyclic ∧ entries.map Prod.fst = ids := by
  obtain ⟨classifier, hfinalize, hread⟩ := Blueprint.exists_finalize_of_map h
  simp only [Prod.mk.injEq] at hread
  obtain ⟨horder, hcyclic, hread⟩ := hread
  obtain ⟨entries, hentries, hids⟩ := exists_of_map_eq_ok hread
  exact ⟨classifier, entries, hfinalize, hentries, horder, hcyclic, hids⟩

/-- An owner is registered before the pet, and evaluated after it. -/
theorem order_eq_registered_iff_workshop :
    (∃ (classifier : Classifier) (entries : List (ClassId × FuzzyClass)),
      workshop.finalize = .ok (.ok classifier) ∧ classifier.entries = .ok entries ∧
      classifier.schedule.order = entries.map Prod.fst ∧
        classifier.schedule.cyclic = [] ∧ classifier.RefersBack) ∧
    ∃ (classifier : Classifier) (entries : List (ClassId × FuzzyClass)),
      Blueprint.owners.finalize = .ok (.ok classifier) ∧ classifier.entries = .ok entries ∧
      classifier.schedule.order ≠ entries.map Prod.fst ∧
        classifier.schedule.cyclic = [] ∧ ¬ classifier.RefersBack := by
  constructor
  · have hreachable : workshop.Reachable :=
      .tryRegister _ (.tryRegister _ (.tryRegister _ (.start _)))
    obtain ⟨classifier, entries, hfinalize, hentries, horder, hcyclic, hids⟩ :=
      exists_entries_of_map workshop [.entry 0, .entry 1, .entry 2] []
        [.entry 0, .entry 1, .entry 2] (by decide +kernel)
    obtain ⟨_, hsame, hregistered⟩ :=
      order_eq_registered_iff ⟨workshop, hreachable, .inl hfinalize⟩
    cases hentries.symm.trans hsame
    have hplaces : classifier.schedule.order = entries.map Prod.fst := horder.trans hids.symm
    exact ⟨classifier, entries, hfinalize, hentries, hplaces, hcyclic,
      hregistered.1 ⟨hplaces, hcyclic⟩⟩
  · have hreachable : Blueprint.owners.Reachable := .tryRegister _ (.tryRegister _ (.start _))
    obtain ⟨classifier, entries, hfinalize, hentries, horder, hcyclic, hids⟩ :=
      exists_entries_of_map Blueprint.owners [.entry 1, .entry 0] [] [.entry 0, .entry 1]
        (by decide +kernel)
    obtain ⟨_, hsame, hregistered⟩ :=
      order_eq_registered_iff ⟨Blueprint.owners, hreachable, .inl hfinalize⟩
    cases hentries.symm.trans hsame
    have hdiffers : classifier.schedule.order ≠ entries.map Prod.fst := by
      rw [horder, hids]
      decide
    exact ⟨classifier, entries, hfinalize, hentries, hdiffers, hcyclic,
      fun hback => hdiffers (hregistered.2 hback).1⟩

end Classifier

end FuzzyHierarchy
