import FuzzyHierarchy.Proofs.Classifier.Finalized
import FuzzyHierarchy.Proofs.Graph.RepeatedEdges

/-
What the schedule of a classifier depends on: the places of the classes that each class refers to,
in the order of their first occurrences. Names, labels and features are not among this, nor are
relations that repeat another relation or the link to the superclass.
-/

namespace FuzzyHierarchy

namespace Registry

/-- The places of the classes that a class refers to: that of its superclass, then those of the
targets of its relations in the order of its constraints. -/
def linkPlaces (registry : Registry) (cls : FuzzyClass) : List Nat :=
  (registry.linksOf cls).filterMap ClassId.index?

variable {a b : Registry}

theorem sameFirstEdges_linkGraph (hsize : a.toList.length = b.toList.length)
    (hplaces : ∀ (i : Nat) x y, a.toList[i]? = some x → b.toList[i]? = some y →
      (a.linkPlaces x).eraseDups = (b.linkPlaces y).eraseDups) :
    a.linkGraph.SameFirstEdges b.linkGraph where
  size_eq := by rw [size_linkGraph, size_linkGraph, hsize]
  eraseDups_next i := by
    rcases Nat.lt_or_ge i a.toList.length with hlt | hge
    · obtain ⟨x, hx⟩ := holds_iff.1 (holds_entry_iff.2 hlt)
      obtain ⟨y, hy⟩ := holds_iff.1 (holds_entry_iff.2 (hlt.trans_eq hsize))
      rw [get?_entry] at hx hy
      rw [next_linkGraph hx, next_linkGraph hy]
      exact hplaces i x y hx hy
    · rw [Graph.next_eq_nil (size_linkGraph.trans_le hge),
        Graph.next_eq_nil (size_linkGraph.trans_le (hsize.symm.trans_le hge))]

end Registry

/-! ## The main statement, with a classifier in other words as an example -/

namespace Classifier

variable {a b : Classifier}

/-- Classifiers of one size of which the classes in one place refer to the same places, up to
repeats, have the same schedule. -/
theorem schedule_eq_of_linkPlaces (ha : a.Finalized) (hb : b.Finalized) (hsize : a.size = b.size)
    (hplaces : ∀ (i : Nat) x y, a.toList[i]? = some x → b.toList[i]? = some y →
      (a.linkPlaces x).eraseDups = (b.linkPlaces y).eraseDups) :
    a.schedule = b.schedule := by
  rw [ha.wellFormed.size_eq, hb.wellFormed.size_eq] at hsize
  have hsame := Registry.sameFirstEdges_linkGraph hsize hplaces
  obtain ⟨s, hsolved, hclassifier⟩ := ha.exists_solved
  obtain ⟨s', hsolved', hclassifier'⟩ := hb.exists_solved
  calc a.schedule
      = { order := s.order.toList.map .entry, cyclic := s.cyclic.toList.map .entry } :=
        congrArg Classifier.schedule hclassifier
    _ = { order := s'.order.toList.map .entry, cyclic := s'.cyclic.toList.map .entry } := by
        rw [hsame.order_eq hsolved hsolved', hsame.cyclic_eq hsolved hsolved']
    _ = b.schedule := (congrArg Classifier.schedule hclassifier').symm

/-- Persons, groups and clubs in other words: a crew has two relations to a ship, a ship that is a
crew relates to crews as well, and so does a ferry that is a ship to ships. -/
def crews : Blueprint :=
  let crew : Registration := {
    name := "Crew"
    vars := ⟨["pay", "hours"], by decide⟩
    constraints := ⟨[.simpleRelation "Ship" "size" "pay" "good", .simpleFeature "hours" "long",
      .complexRelation "Ship" "size" "pay" "hours" "good"]⟩ }
  let ship : Registration := {
    name := "Ship"
    superclass? := some "Crew"
    vars := ⟨["size"], List.nodup_singleton _⟩
    constraints := ⟨[.inverseRelation "size" "Crew" "pay" "hours" "large"]⟩ }
  let ferry : Registration := {
    name := "Ferry"
    superclass? := some "Ship"
    vars := ⟨["trips"], List.nodup_singleton _⟩
    constraints := ⟨[.simpleRelation "Ship" "size" "trips" "many"]⟩ }
  ((({} : Blueprint).tryRegister crew).tryRegister ship).tryRegister ferry

theorem schedule_eq_of_linkPlaces_crews :
    ∃ a b : Classifier, Blueprint.people.finalize = .ok (.ok a) ∧ crews.finalize = .ok (.ok b) ∧
      a.toList.map a.linkPlaces = [[1], [0], [1]] ∧
      b.toList.map b.linkPlaces = [[1, 1], [0, 0], [1, 1]] ∧ a.schedule = b.schedule := by
  have hreachable : crews.Reachable := .tryRegister _ (.tryRegister _ (.tryRegister _ (.start _)))
  obtain ⟨a, ha⟩ := Blueprint.exists_finalize_people
  obtain ⟨b, hb, -⟩ := Blueprint.exists_finalize_of_map
    (show crews.finalize.map (·.map (·.size)) = .ok (.ok 3) by decide +kernel)
  obtain ⟨hregistry, -⟩ := Blueprint.reachable_people.scheduled ha
  obtain ⟨hregistry', -⟩ := hreachable.scheduled hb
  have hplaces : a.toList.map a.linkPlaces = [[1], [0], [1]] := by
    rw [hregistry]
    decide +kernel
  have hplaces' : b.toList.map b.linkPlaces = [[1, 1], [0, 0], [1, 1]] := by
    rw [hregistry']
    decide +kernel
  have hsize : a.size = b.size := by
    rw [hregistry, hregistry']
    decide +kernel
  refine ⟨a, b, ha, hb, hplaces, hplaces', ?_⟩
  refine schedule_eq_of_linkPlaces ⟨_, Blueprint.reachable_people, .inl ha⟩
    ⟨_, hreachable, .inl hb⟩ hsize fun i x y hx hy => ?_
  have hfirst : (a.toList.map a.linkPlaces).map List.eraseDups =
      (b.toList.map b.linkPlaces).map List.eraseDups := by
    rw [hplaces, hplaces']
    decide +kernel
  simpa [hx, hy] using congrArg (·[i]?) hfirst

end Classifier

end FuzzyHierarchy
