import FuzzyHierarchy.Proofs.Classifier.Finalization

/-
The evaluation order of a finalized classifier and its cyclic classes, in terms of the links between
its classes.

Main statements: every class stands in the order once, classes that lead to each other stand
together, and a class comes after all that it leads to without being led back; the cyclic classes
are those on a path of links back to themselves; and the order is the component order of the plain
recursive search of the links, which is its order of finishing when no class is cyclic.
-/

namespace FuzzyHierarchy

/-- A value comes before those that lead to it, in a list that leads back wherever it leads on. -/
theorem idxOf_lt_of_pairwise {α : Type} [DecidableEq α] {leads : α → α → Prop} {values : List α}
    {a b : α} (h : values.Pairwise fun u v => leads u v → leads v u) (ha : a ∈ values)
    (hb : b ∈ values) (hlead : leads a b) (hback : ¬ leads b a) :
    values.idxOf b < values.idxOf a := by
  have hia := List.idxOf_lt_length_of_mem ha
  have hib := List.idxOf_lt_length_of_mem hb
  by_contra hle
  rcases Nat.lt_or_eq_of_le (Nat.not_lt.1 hle) with hlt | heq
  · have hpair := List.pairwise_iff_getElem.1 h _ _ hia hib hlt
    rw [List.getElem_idxOf, List.getElem_idxOf] at hpair
    exact hback (hpair hlead)
  · have hsame : a = b := (List.idxOf_inj ha).1 heq
    exact hback (hsame ▸ hlead)

namespace Registry

variable {registry : Registry} {s : Search}

/-- What a schedule says about the links of a registry. -/
structure Scheduled (registry : Registry) (schedule : Schedule) : Prop where
  order : schedule.order =
    (registry.linkGraph.componentOrder registry.linkGraph.traversal).map .entry
  nodup : schedule.order.Nodup
  mem_order : ∀ id, id ∈ schedule.order ↔ registry.holds id = true
  settled : schedule.order.Pairwise fun a b => registry.LeadsTo a b → registry.LeadsTo b a
  contiguous : ∀ a ∈ schedule.order, ∃ before members after,
    schedule.order = before ++ members ++ after ∧
      ∀ b, b ∈ members ↔ registry.LeadsTo a b ∧ registry.LeadsTo b a
  cyclic_sublist : schedule.cyclic.Sublist schedule.order
  mem_cyclic : ∀ id, id ∈ schedule.cyclic ↔ registry.LeadsBack id

theorem WellFormed.scheduled (h : registry.WellFormed) (hsolved : registry.linkGraph.Solved s) :
    registry.Scheduled
      { order := s.order.toList.map .entry, cyclic := s.cyclic.toList.map .entry } where
  order := congrArg _ hsolved.order
  nodup := (hsolved.perm.nodup_iff.2 List.nodup_range).map ClassId.entry_injective
  mem_order id := by
    cases id with
    | entry i =>
      rw [List.mem_map_of_injective ClassId.entry_injective, hsolved.perm.mem_iff, List.mem_range,
        size_linkGraph, holds_entry_iff]
    | null => exact iff_of_false (by simp) not_holds_null
  settled := by
    rw [List.pairwise_map]
    exact hsolved.settled.imp fun hsettled => by
      rwa [h.leadsTo_iff_reaches, h.leadsTo_iff_reaches]
  contiguous a ha := by
    obtain ⟨u, hu, rfl⟩ := List.mem_map.1 ha
    obtain ⟨before, members, after, hsplit, hmembers⟩ := hsolved.contiguous u hu
    refine ⟨before.map .entry, members.map .entry, after.map .entry, by simp [hsplit], fun b => ?_⟩
    cases b with
    | entry v =>
      rw [List.mem_map_of_injective ClassId.entry_injective, hmembers,
        h.leadsTo_iff_reaches, h.leadsTo_iff_reaches]
      rfl
    | null =>
      exact iff_of_false (by simp) fun hmutual =>
        not_holds_null (LeadsTo.holds_left hmutual.2 (by simp))
  cyclic_sublist := by
    change (s.cyclic.toList.map ClassId.entry).Sublist _
    rw [hsolved.cyclic]
    exact List.filter_sublist.map _
  mem_cyclic id := by
    cases id with
    | entry i =>
      rw [List.mem_map_of_injective ClassId.entry_injective, hsolved.cyclic, List.mem_filter,
        h.leadsBack_iff_onCycle, hsolved.perm.mem_iff, List.mem_range, decide_eq_true_iff]
      exact and_iff_right_of_imp fun hcycle =>
        size_linkGraph ▸ holds_entry_iff.1 (LeadsBack.holds (h.leadsBack_iff_onCycle.2 hcycle))
    | null => exact iff_of_false (by simp) fun hback => not_holds_null (LeadsBack.holds hback)

namespace Scheduled

variable {schedule : Schedule} {a b : ClassId}

/-- A class comes after those that it leads to without being led back. -/
theorem idxOf_lt_idxOf (h : registry.Scheduled schedule) (hwf : registry.WellFormed)
    (hlead : registry.LeadsTo a b) (hback : ¬ registry.LeadsTo b a) :
    schedule.order.idxOf b < schedule.order.idxOf a := by
  have hne : a ≠ b := by
    rintro rfl
    exact hback Relation.ReflTransGen.refl
  have ha := (h.mem_order a).2 (LeadsTo.holds_left hlead hne)
  have hb := (h.mem_order b).2 (LeadsTo.holds_right hlead hwf hne)
  exact idxOf_lt_of_pairwise h.settled ha hb hlead hback

theorem order_eq_finished (h : registry.Scheduled schedule) (hwf : registry.WellFormed)
    (hnone : schedule.cyclic = []) :
    schedule.order = registry.linkGraph.traversal.finished.map .entry := by
  have hacyclic : ∀ i, ¬ registry.linkGraph.OnCycle i := by
    intro i hcycle
    have hmem := (h.mem_cyclic _).2 (hwf.leadsBack_iff_onCycle.2 hcycle)
    rw [hnone] at hmem
    cases hmem
  rw [h.order, Graph.componentOrder_eq_finished Graph.nodup_discovered_traversal
    Graph.finished_traversal_subset hacyclic]

end Scheduled

end Registry

namespace Blueprint

variable {blueprint : Blueprint} {classifier : Classifier}

theorem Reachable.scheduled (hreachable : blueprint.Reachable)
    (hfinalize : blueprint.finalize = .ok (.ok classifier)) :
    classifier.toRegistry = blueprint.registry ∧
      blueprint.registry.Scheduled classifier.schedule := by
  obtain ⟨s, hsolved, rfl⟩ := exists_solved_of_finalize hreachable.wellFormed hfinalize
  exact ⟨rfl, hreachable.wellFormed.scheduled hsolved⟩

/-! ## The main statements, with a cycle of two classes as an example -/

/-- A person refers to a group, and a group is a person; a club is a group. -/
def people : Blueprint :=
  let person : Registration := {
    name := "Person"
    vars := { names := ["age"] }
    constraints := ⟨[.simpleRelation "Group" "size" "age" "old"]⟩ }
  let group : Registration := {
    name := "Group"
    superclass? := some "Person"
    vars := { names := ["size"] } }
  let club : Registration := { name := "Club", superclass? := some "Group" }
  ((({} : Blueprint).tryRegister person).tryRegister group).tryRegister club

theorem reachable_people : people.Reachable :=
  .tryRegister _ (.tryRegister _ (.tryRegister _ (.start _)))

theorem exists_finalize_people : ∃ classifier, people.finalize = .ok (.ok classifier) := by
  obtain ⟨classifier, hfinalize, -⟩ := exists_finalize_of_map
    (show people.finalize.map (·.map (·.size)) = .ok (.ok 3) by decide +kernel)
  exact ⟨classifier, hfinalize⟩

theorem linkGraph_people : people.registry.linkGraph = ⟨#[[1], [0], [1]]⟩ :=
  congrArg Graph.mk (by decide +kernel)

theorem links_people :
    people.registry.Links (.entry 0) (.entry 1) ∧ people.registry.Links (.entry 1) (.entry 0) ∧
      people.registry.Links (.entry 2) (.entry 1) := by
  simp only [Registry.links_entry_iff_edge, linkGraph_people]
  decide

/-- Every class stands in the evaluation order once, the classes of one component stand together,
and a class that leads to another one without being led back comes after it. -/
theorem order_respects_links (hreachable : blueprint.Reachable)
    (hfinalize : blueprint.finalize = .ok (.ok classifier)) :
    classifier.schedule.order.Nodup ∧
      (∀ id, id ∈ classifier.schedule.order ↔ blueprint.registry.holds id = true) ∧
      (∀ a ∈ classifier.schedule.order, ∃ before members after,
        classifier.schedule.order = before ++ members ++ after ∧
          ∀ b, b ∈ members ↔ blueprint.registry.LeadsTo a b ∧ blueprint.registry.LeadsTo b a) ∧
      ∀ a b, blueprint.registry.LeadsTo a b → ¬ blueprint.registry.LeadsTo b a →
        classifier.schedule.order.idxOf b < classifier.schedule.order.idxOf a := by
  obtain ⟨-, h⟩ := hreachable.scheduled hfinalize
  refine ⟨h.nodup, h.mem_order, h.contiguous, fun a b hlead hback => ?_⟩
  exact h.idxOf_lt_idxOf hreachable.wellFormed hlead hback

theorem order_respects_links_people :
    ∃ classifier, people.finalize = .ok (.ok classifier) ∧
      classifier.schedule.order.idxOf (.entry 1) < classifier.schedule.order.idxOf (.entry 2) := by
  obtain ⟨classifier, hfinalize⟩ := exists_finalize_people
  obtain ⟨-, -, -, hbefore⟩ := order_respects_links reachable_people hfinalize
  have hvisit : (people.registry.linkGraph.visit [1] {}).discovered = [1, 0] := by
    rw [linkGraph_people]
    cbv
  refine ⟨classifier, hfinalize, hbefore _ _ (.single links_people.2.2) fun hback => ?_⟩
  rw [reachable_people.wellFormed.leadsTo_iff_reaches, ← Graph.mem_visit_singleton_iff,
    hvisit] at hback
  simp at hback

/-- The cyclic classes are those that lead back to themselves, in the order of evaluation. -/
theorem isCyclic_iff_leads_back (hreachable : blueprint.Reachable)
    (hfinalize : blueprint.finalize = .ok (.ok classifier)) :
    (∀ id, classifier.schedule.isCyclic id = true ↔ blueprint.registry.LeadsBack id) ∧
      (∀ id cls, blueprint.registry.get? id = some cls →
        classifier.isCyclic cls.name = classifier.schedule.isCyclic id) ∧
      (∀ name, name ∉ blueprint.registry.names → classifier.isCyclic name = false) ∧
      classifier.schedule.cyclic.Nodup ∧
      classifier.schedule.cyclic.Sublist classifier.schedule.order ∧
      ∀ id, id ∈ classifier.schedule.cyclic ↔ blueprint.registry.LeadsBack id := by
  obtain ⟨hregistry, h⟩ := hreachable.scheduled hfinalize
  refine ⟨fun id => List.contains_iff_mem.trans (h.mem_cyclic id), fun id cls hget => ?_,
    fun name hfree => ?_, h.nodup.sublist h.cyclic_sublist, h.cyclic_sublist, h.mem_cyclic⟩
  · rw [Classifier.isCyclic, hregistry,
      hreachable.wellFormed.idOf?_eq_some_iff.2 ⟨cls, hget, rfl⟩]
  · rw [Classifier.isCyclic, hregistry, Registry.idOf?_eq_none_iff.2 hfree]

theorem isCyclic_iff_leads_back_people :
    ∃ classifier, people.finalize = .ok (.ok classifier) ∧
      classifier.schedule.isCyclic (.entry 0) = true ∧
      classifier.isCyclic "Person" = classifier.schedule.isCyclic (.entry 0) ∧
      classifier.isCyclic "Team" = false := by
  obtain ⟨classifier, hfinalize⟩ := exists_finalize_people
  obtain ⟨hcyclic, hname, hother, -⟩ := isCyclic_iff_leads_back reachable_people hfinalize
  have hperson : (people.registry.get? (.entry 0)).map (·.name) = some "Person" := by decide +kernel
  obtain ⟨person, hget, hperson⟩ := Option.map_eq_some_iff.1 hperson
  refine ⟨classifier, hfinalize, (hcyclic _).2 ?_, hperson ▸ hname _ person hget,
    hother _ (by decide +kernel)⟩
  exact .tail (.single links_people.1) links_people.2.1

/-- The evaluation order is that in which the plain recursive search of the links finishes the first
classes of their components, and the order of finishing when no class is cyclic. -/
theorem order_eq_componentOrder (hreachable : blueprint.Reachable)
    (hfinalize : blueprint.finalize = .ok (.ok classifier)) :
    classifier.schedule.order =
        (blueprint.registry.linkGraph.componentOrder blueprint.registry.linkGraph.traversal).map
          .entry ∧
      (classifier.schedule.cyclic = [] →
        classifier.schedule.order =
          blueprint.registry.linkGraph.traversal.finished.map .entry) := by
  obtain ⟨-, h⟩ := hreachable.scheduled hfinalize
  exact ⟨h.order, h.order_eq_finished hreachable.wellFormed⟩

/-- An owner refers to a pet, which is registered later. -/
def owners : Blueprint :=
  let owner : Registration := {
    name := "Owner"
    vars := { names := ["care"] }
    constraints := ⟨[.simpleRelation "Pet" "size" "care" "much"]⟩ }
  let pet : Registration := { name := "Pet", vars := { names := ["size"] } }
  (({} : Blueprint).tryRegister owner).tryRegister pet

theorem order_eq_componentOrder_examples :
    (∃ classifier, people.finalize = .ok (.ok classifier) ∧
      classifier.schedule.order = [.entry 0, .entry 1, .entry 2]) ∧
    ∃ classifier, owners.finalize = .ok (.ok classifier) ∧ classifier.schedule.cyclic = [] ∧
      classifier.schedule.order = [.entry 1, .entry 0] := by
  constructor
  · obtain ⟨classifier, hfinalize⟩ := exists_finalize_people
    obtain ⟨horder, -⟩ := order_eq_componentOrder reachable_people hfinalize
    have hcomponents :
        people.registry.linkGraph.componentOrder people.registry.linkGraph.traversal =
          [0, 1, 2] := by
      rw [linkGraph_people]
      cbv
    exact ⟨classifier, hfinalize, by rw [horder, hcomponents]; rfl⟩
  · have hreachable : owners.Reachable := .tryRegister _ (.tryRegister _ (.start _))
    obtain ⟨classifier, hfinalize, hnone⟩ := exists_finalize_of_map
      (show owners.finalize.map (·.map (·.schedule.cyclic)) = .ok (.ok []) by decide +kernel)
    obtain ⟨-, horder⟩ := order_eq_componentOrder hreachable hfinalize
    have hgraph : owners.registry.linkGraph = ⟨#[[1], []]⟩ := congrArg Graph.mk (by decide +kernel)
    have hfinished : owners.registry.linkGraph.traversal.finished = [1, 0] := by
      rw [hgraph]
      cbv
    exact ⟨classifier, hfinalize, hnone, by rw [horder hnone, hfinished]; rfl⟩

end Blueprint

end FuzzyHierarchy
