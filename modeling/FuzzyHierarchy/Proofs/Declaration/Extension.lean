import FuzzyHierarchy.Proofs.Classifier.EvaluationOrder
import FuzzyHierarchy.Proofs.Declaration.Acceptance
import FuzzyHierarchy.Proofs.Registry.Extension

/-
Declaring more classes. Where a list of declarations gives a classifier and so does a longer list
that begins with it, the classes of the first are there in the second under their ids, and nothing
that can be asked about them has changed.

Main statement: the classes, the dependencies, the evaluation order and the cyclic classes of the
longer list begin with those of the shorter one, and the lookups agree.
-/

namespace FuzzyHierarchy

namespace Blueprint

section

variable {a b : Blueprint} {c d : Classifier}

/-- Finalizing a blueprint that extends another one comes to a classifier that begins with that of
the other one. -/
theorem prefix_of_extends (hextends : a.registry.Extends b.registry) (ha : a.registry.WellFormed)
    (hb : b.registry.WellFormed) (hc : a.finalize = .ok (.ok c)) (hd : b.finalize = .ok (.ok d)) :
    c.dependencies <+: d.dependencies ∧ c.schedule.order <+: d.schedule.order ∧
      c.schedule.cyclic <+: d.schedule.cyclic := by
  have hgraph := hextends.linkGraph ha hb (consistent_of_finalize ha hc)
  obtain ⟨s, hs, rfl⟩ := exists_solved_of_finalize ha hc
  obtain ⟨s', hs', rfl⟩ := exists_solved_of_finalize hb hd
  have horder : s.order.toList <+: s'.order.toList := by
    rw [hs.order, hs'.order]
    exact hgraph.componentOrder_prefix ha.closed_linkGraph
  exact ⟨List.IsPrefix.flatMap hextends _, List.IsPrefix.map _ horder,
    List.IsPrefix.map _ (hgraph.cyclic_prefix ha.closed_linkGraph hs hs')⟩

/-- The classes of the first registry are as cyclic in the second one. -/
theorem isCyclic_eq_of_extends (hextends : a.registry.Extends b.registry) (ha : a.Reachable)
    (hb : b.Reachable) (hc : a.finalize = .ok (.ok c)) (hd : b.finalize = .ok (.ok d))
    {id : ClassId} (hheld : a.registry.holds id = true) :
    c.schedule.isCyclic id = d.schedule.isCyclic id := by
  have hleads := hextends.leadsBack_iff ha.wellFormed hb.wellFormed
    (consistent_of_finalize ha.wellFormed hc) hheld
  rw [Bool.eq_iff_iff, Schedule.isCyclic, Schedule.isCyclic, List.contains_iff_mem,
    List.contains_iff_mem, (ha.scheduled hc).2.mem_cyclic, (hb.scheduled hd).2.mem_cyclic, hleads]

end

variable {settings : Settings} {ds es : List Declaration} {shorter longer : Blueprint}
  {a b : Classifier}

/-- What a longer list of declarations registers begins with what the shorter one registers. -/
theorem extends_of_declareAll_append (hshorter : declareAll { settings } ds = .ok shorter)
    (hlonger : declareAll { settings } (ds ++ es) = .ok longer) :
    shorter.Reachable ∧ longer.Reachable ∧ shorter.registry.Extends longer.registry := by
  obtain ⟨hreachable, -⟩ := declareAll_start_eq_ok hshorter
  rw [declareAll, InPlace.all_append] at hlonger
  obtain ⟨middle, hmiddle, hlater⟩ := exists_of_bind_eq_ok hlonger
  cases hshorter.symm.trans hmiddle
  obtain ⟨hreachable', classes, -, hclasses⟩ := declareAll_eq_ok hreachable hlater
  exact ⟨hreachable, hreachable', classes, hclasses.symm⟩

/-! ## The main statement, with a class below a cycle as an example -/

/-- The classifier of a list of declarations is the beginning of that of a longer list, and it
answers alike for each of its classes. -/
theorem finalize_extends (hshorter : declareAll { settings } ds = .ok shorter)
    (ha : shorter.finalize = .ok (.ok a))
    (hlonger : declareAll { settings } (ds ++ es) = .ok longer)
    (hb : longer.finalize = .ok (.ok b)) :
    (∃ entries entries', a.entries = .ok entries ∧ b.entries = .ok entries' ∧
      entries <+: entries') ∧ a.dependencies <+: b.dependencies ∧
      a.schedule.order <+: b.schedule.order ∧ a.schedule.cyclic <+: b.schedule.cyclic ∧
      ∀ name ∈ ds.map (·.name), ∃ id, a.idOf? name = some id ∧ b.idOf? name = some id ∧
        (∃ above, a.ancestors id = .ok above ∧ b.ancestors id = .ok above) ∧
        (∀ symbol, ∃ found,
          a.findVariable id symbol = .ok found ∧ b.findVariable id symbol = .ok found) ∧
        (∀ symbol, ∃ found,
          a.findConstant id symbol = .ok found ∧ b.findConstant id symbol = .ok found) ∧
        a.isCyclic name = b.isCyclic name ∧
        a.schedule.isCyclic id = b.schedule.isCyclic id := by
  obtain ⟨hshort, hlong, hextends⟩ := extends_of_declareAll_append hshorter hlonger
  have hwf := hshort.wellFormed
  have hwf' := hlong.wellFormed
  obtain ⟨hdependencies, horder, hcyclic⟩ := prefix_of_extends hextends hwf hwf' ha hb
  have hregistry := (hshort.scheduled ha).1
  have hregistry' := (hlong.scheduled hb).1
  refine ⟨?_, hdependencies, horder, hcyclic, fun name hname => ?_⟩
  · rw [hregistry, hregistry']
    exact ⟨_, _, hwf.entries_eq, hwf'.entries_eq, hextends.placed_prefix⟩
  rw [← Declaration.names_eq (declareAll_start_eq_ok hshorter).2 hwf] at hname
  obtain ⟨id, hid⟩ := Registry.exists_idOf?_of_mem_names hname
  have hid' := hextends.idOf?_eq_some hwf hwf' hid
  obtain ⟨cls, hget, -⟩ := hwf.idOf?_eq_some_iff.1 hid
  obtain ⟨classes, hlineage, hlineage'⟩ := hextends.exists_lineage hwf hwf' hget
  have hsame := isCyclic_eq_of_extends hextends hshort hlong ha hb
    (Registry.holds_iff.2 ⟨cls, hget⟩)
  refine ⟨id, by rw [hregistry, hid], by rw [hregistry', hid'], ?_, fun symbol => ?_,
    fun symbol => ?_, ?_, hsame⟩
  · rw [hregistry, hregistry']
    exact hextends.exists_ancestors hwf hwf' hget
  · rw [hregistry, hregistry', Registry.findVariable, Registry.findVariable, hlineage, hlineage']
    exact ⟨_, rfl, rfl⟩
  · rw [hregistry, hregistry', Registry.findConstant, Registry.findConstant, hlineage, hlineage']
    exact ⟨_, rfl, rfl⟩
  · rw [Classifier.isCyclic, Classifier.isCyclic, hregistry, hregistry', hid, hid']
    exact hsame

/-- A person refers to a group, and a group is a person. -/
def peopleDeclared : List Declaration :=
  [{ name := "Person", vars := ["age"], consts := [("adult", "18")],
     constraints := [(.simpleRelation, ["Group", "size", "age", "old"])] },
   { name := "Group", superclass? := some "Person", vars := ["size"] }]

/-- A club is a group. -/
def clubDeclared : Declaration :=
  { name := "Club", superclass? := some "Group", vars := ["fee"],
    constraints := [(.simpleRelation, ["Person", "age", "fee", "low"])] }

theorem finalize_extends_peopleDeclared :
    ∃ shorter longer a b, declareAll {} peopleDeclared = .ok shorter ∧
      shorter.finalize = .ok (.ok a) ∧
      declareAll {} (peopleDeclared ++ [clubDeclared]) = .ok longer ∧
      longer.finalize = .ok (.ok b) ∧
      a.schedule.order <+: b.schedule.order ∧
      ∃ id, a.idOf? "Group" = some id ∧ ∃ found,
        a.findConstant id "adult" = .ok found ∧ b.findConstant id "adult" = .ok found := by
  obtain ⟨shorter, a, hshorter, ha, -⟩ := exists_classifier_of_map
    (show (declareAll {} peopleDeclared).map (fun blueprint => blueprint.finalize.map
      (·.map (·.size))) = .ok (.ok (.ok 2)) by decide +kernel)
  obtain ⟨longer, b, hlonger, hb, -⟩ := exists_classifier_of_map
    (show (declareAll {} (peopleDeclared ++ [clubDeclared])).map (fun blueprint =>
      blueprint.finalize.map (·.map (·.size))) = .ok (.ok (.ok 3)) by decide +kernel)
  obtain ⟨-, -, horder, -, hanswers⟩ := finalize_extends hshorter ha hlonger hb
  obtain ⟨id, hid, -, -, -, hconstant, -⟩ := hanswers "Group" (by decide)
  exact ⟨shorter, longer, a, b, hshorter, ha, hlonger, hb, horder, id, hid, hconstant "adult"⟩

end Blueprint

end FuzzyHierarchy
