import FuzzyHierarchy.Proofs.Classifier.Finalized

/-
The dependencies of a finalized classifier, told from its classes: a relation of a class is one
edge, from the name of the class to that of its target. Repeated relations give repeated edges, and
a relation of a class to itself gives an edge like any other.

Main statement: the dependencies are the edges of the classes, one class after another, and those
kept under a name are the edges of the class that is called so.
-/

namespace FuzzyHierarchy

/-- The edges of a constraint of the class `owner`: a relation has one, a simple feature none. -/
def Constraint.edges (owner : String) : Constraint → List Dependency
  | simpleFeature .. => []
  | simpleRelation target .. => [{ owner, target }]
  | complexRelation target .. => [{ owner, target }]
  | inverseRelation _ target .. => [{ owner, target }]

/-- The edges of a class, in the order of its constraints. -/
def FuzzyClass.edges (cls : FuzzyClass) : List Dependency :=
  cls.constraints.toList.flatMap (Constraint.edges cls.name)

theorem FuzzyClass.edges_eq_dependencies : FuzzyClass.edges = FuzzyClass.dependencies := by
  funext cls
  rw [edges, dependencies, List.filterMap_eq_flatMap_toList]
  refine List.flatMap_congr fun constraint _ => ?_
  cases constraint <;> rfl

namespace Classifier

variable {classifier : Classifier}

theorem Finalized.dependencies_eq (h : classifier.Finalized) :
    classifier.dependencies = classifier.toList.flatMap FuzzyClass.edges := by
  obtain ⟨s, -, hclassifier⟩ := h.exists_solved
  rw [FuzzyClass.edges_eq_dependencies]
  exact congrArg Classifier.dependencies hclassifier

/-- The names of the owners are distinct, so a class keeps its own edges and no others. -/
theorem Finalized.dependenciesOf_eq_edges (h : classifier.Finalized) {cls : FuzzyClass}
    (hcls : cls ∈ classifier.toList) : classifier.dependenciesOf cls.name = cls.edges := by
  rw [dependenciesOf, h.dependencies_eq, FuzzyClass.edges_eq_dependencies]
  exact h.wellFormed.filter_owner_eq_dependencies hcls

theorem Finalized.dependenciesOf_eq_nil (h : classifier.Finalized) {name : String}
    (hfree : name ∉ classifier.names) : classifier.dependenciesOf name = [] := by
  rw [dependenciesOf, h.dependencies_eq, FuzzyClass.edges_eq_dependencies]
  exact h.wellFormed.filter_owner_eq_nil hfree

/-! ## The main statement, with a repeated relation and one of a class to itself as an example -/

/-- The dependencies are the edges of the classes in the order of registration. The dependencies of
a name are the edges of the class called so, if there is one, and taken for one name after another
they are all dependencies. -/
theorem dependencies_eq_edges (h : classifier.Finalized) :
    classifier.dependencies = classifier.toList.flatMap FuzzyClass.edges ∧
      (∀ name, ∃ cls?, classifier.find? name = .ok cls? ∧
        classifier.dependenciesOf name = cls?.elim [] FuzzyClass.edges) ∧
      classifier.dependencies = classifier.names.flatMap classifier.dependenciesOf := by
  have hall := h.dependencies_eq
  refine ⟨hall, fun name => ?_, ?_⟩
  · obtain ⟨cls?, hfind⟩ := h.wellFormed.exists_find? name
    refine ⟨cls?, hfind, ?_⟩
    cases cls? with
    | none => exact h.dependenciesOf_eq_nil (Registry.find?_eq_none_iff.1 hfind)
    | some cls =>
      obtain ⟨hcls, rfl⟩ := h.wellFormed.find?_eq_some_iff.1 hfind
      exact h.dependenciesOf_eq_edges hcls
  · rw [hall, h.wellFormed.names_eq, List.flatMap_map]
    exact List.flatMap_congr fun cls hcls => (h.dependenciesOf_eq_edges hcls).symm

/-- A person who relates twice to a group and once to persons, and a group that relates to a person;
no relation has the club as its owner or its target. -/
def neighbours : Blueprint :=
  let person : Registration := {
    name := "Person"
    vars := ⟨["years", "height"], by decide⟩
    constraints := ⟨[.simpleFeature "years" "old", .simpleRelation "Group" "size" "years" "old",
      .complexRelation "Group" "size" "years" "height" "grown",
      .simpleRelation "Person" "height" "years" "tall"]⟩ }
  let group : Registration := {
    name := "Group"
    vars := ⟨["size"], List.nodup_singleton _⟩
    constraints := ⟨[.inverseRelation "size" "Person" "years" "height" "large"]⟩ }
  let club : Registration := { name := "Club", superclass? := some "Group" }
  ((({} : Blueprint).tryRegister person).tryRegister group).tryRegister club

theorem dependencies_eq_edges_neighbours :
    ∃ classifier, neighbours.finalize = .ok (.ok classifier) ∧
      classifier.dependencies = [⟨"Person", "Group"⟩, ⟨"Person", "Group"⟩, ⟨"Person", "Person"⟩,
        ⟨"Group", "Person"⟩] ∧
      classifier.dependenciesOf "Person" =
        [⟨"Person", "Group"⟩, ⟨"Person", "Group"⟩, ⟨"Person", "Person"⟩] ∧
      classifier.dependenciesOf "Club" = [] ∧ classifier.dependenciesOf "Team" = [] := by
  have hreachable : neighbours.Reachable :=
    .tryRegister _ (.tryRegister _ (.tryRegister _ (.start _)))
  obtain ⟨classifier, hfinalize, -⟩ := Blueprint.exists_finalize_of_map
    (show neighbours.finalize.map (·.map (·.size)) = .ok (.ok 3) by decide +kernel)
  obtain ⟨hregistry, -⟩ := hreachable.scheduled hfinalize
  obtain ⟨hall, hof, -⟩ := dependencies_eq_edges ⟨neighbours, hreachable, .inl hfinalize⟩
  rw [hregistry] at hall hof
  have hedges : ∀ name edges, (neighbours.registry.find? name).map (·.elim [] FuzzyClass.edges) =
      .ok edges → classifier.dependenciesOf name = edges := by
    intro name edges hread
    obtain ⟨cls?, hfind, hnamed⟩ := hof name
    rw [hfind] at hread
    exact hnamed.trans (Except.ok.inj hread)
  refine ⟨classifier, hfinalize, hall.trans ?_, hedges _ _ ?_, hedges _ _ ?_, hedges _ _ ?_⟩ <;>
    decide +kernel

end Classifier

end FuzzyHierarchy
