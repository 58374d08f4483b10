import FuzzyHierarchy.Proofs.Registry.Correspondence
import FuzzyHierarchy.Proofs.Registry.LinkGraph
import FuzzyHierarchy.Proofs.Registry.Violations

/-
Registries that differ in what neither the sweep nor the schedule reads: the constants of a class,
whether it is hidden, the labels of its constraints and the order in which its variables are
declared.

Main statements: similar registries have the same violations, the same dependencies and the same
links, and a variable is found in classes of the same name.
-/

namespace FuzzyHierarchy

namespace Constraint

/-- A constraint without its label. -/
def unlabelled : Constraint → Constraint
  | simpleFeature own _ => simpleFeature own ""
  | simpleRelation target remote own _ => simpleRelation target remote own ""
  | complexRelation target remote first second _ => complexRelation target remote first second ""
  | inverseRelation own target first second _ => inverseRelation own target first second ""

@[simp] theorem target?_unlabelled (constraint : Constraint) :
    constraint.unlabelled.target? = constraint.target? := by
  cases constraint <;> rfl

@[simp] theorem references_unlabelled (constraint : Constraint) :
    constraint.unlabelled.references = constraint.references := by
  cases constraint <;> rfl

end Constraint

/-- The two bodies declare the same variables and have the same constraints up to their labels. -/
structure ClassBody.Similar (x y : ClassBody) : Prop where
  mem_vars_iff : ∀ name, name ∈ x.vars ↔ name ∈ y.vars
  constraints : x.constraints.toList.map Constraint.unlabelled =
    y.constraints.toList.map Constraint.unlabelled

/-- Classes of one name and one superclass that are similar otherwise. -/
abbrev FuzzyClass.Similar : FuzzyClass → FuzzyClass → Prop :=
  FuzzyClass.Corresponds ClassBody.Similar

/-- What is read off the constraints but not off their labels is the same for similar bodies. -/
theorem ClassBody.Similar.filterMap_constraints {x y : ClassBody} (h : x.Similar y) {γ : Type}
    {f : Constraint → Option γ} (hf : ∀ constraint, f constraint.unlabelled = f constraint) :
    x.constraints.toList.filterMap f = y.constraints.toList.filterMap f := by
  have hread : ∀ constraints : List Constraint,
      constraints.filterMap f = (constraints.map Constraint.unlabelled).filterMap f := by
    intro constraints
    rw [List.filterMap_map]
    exact (List.filterMap_congr fun constraint _ => hf constraint).symm
  rw [hread x.constraints.toList, h.constraints, ← hread]

theorem FuzzyClass.Similar.declares_eq {x y : FuzzyClass} (h : x.Similar y) :
    x.declares = y.declares := by
  funext name
  rw [Bool.eq_iff_iff, declares, declares, Variables.contains_eq_true_iff,
    Variables.contains_eq_true_iff]
  exact h.body.mem_vars_iff name

theorem FuzzyClass.Similar.dependencies_eq {x y : FuzzyClass} (h : x.Similar y) :
    x.dependencies = y.dependencies := by
  have hdependency : ∀ constraint : Constraint,
      constraint.dependency? x = constraint.dependency? y := fun constraint => by
    rw [Constraint.dependency?, Constraint.dependency?, h.name]
  rw [dependencies, dependencies]
  simp only [hdependency]
  refine h.body.filterMap_constraints fun constraint => ?_
  rw [Constraint.dependency?, Constraint.dependency?, Constraint.target?_unlabelled]

namespace Registry

/-- The classes of the two registries are similar, one by one. -/
abbrev Similar : Registry → Registry → Prop := Corresponds ClassBody.Similar

variable {a b : Registry} {x y : FuzzyClass}

namespace Similar

/-! ## Violations and dependencies -/

theorem resolves_iff (h : Similar a b) (ha : a.WellFormed) (hb : b.WellFormed)
    (hsimilar : x.Similar y) (reference : Reference) :
    a.Resolves x reference ↔ b.Resolves y reference := by
  cases reference with
  | ownVariable name => exact hsimilar.body.mem_vars_iff name
  | targetClass target => rw [Resolves, Resolves, h.names_eq ha hb]
  | targetVariable target name =>
    exact exists_mem_iff_of_forall₂ h fun scope other hscope =>
      and_congr (by rw [hscope.name]) (hscope.body.mem_vars_iff name)

theorem violation?_eq (h : Similar a b) (ha : a.WellFormed) (hb : b.WellFormed)
    (hsimilar : x.Similar y) : a.violation? x = b.violation? y := by
  have hviolation : Reference.violation x = Reference.violation y := by
    funext reference
    cases reference <;> simp only [Reference.violation, hsimilar.name]
  funext constraint
  simp only [violation?, h.resolves_iff ha hb hsimilar, hviolation]

theorem violations_eq (h : Similar a b) (ha : a.WellFormed) (hb : b.WellFormed) :
    a.violations = b.violations := by
  rw [violations_eq_flatMap, violations_eq_flatMap]
  refine flatMap_eq_flatMap_of_forall₂ h fun x y hsimilar => ?_
  rw [h.violation?_eq ha hb hsimilar]
  refine hsimilar.body.filterMap_constraints fun constraint => ?_
  rw [violation?, violation?, Constraint.references_unlabelled]

theorem dependencies_eq (h : Similar a b) :
    a.toList.flatMap FuzzyClass.dependencies = b.toList.flatMap FuzzyClass.dependencies :=
  flatMap_eq_flatMap_of_forall₂ h fun _ _ => FuzzyClass.Similar.dependencies_eq

/-! ## Links, and the way up -/

theorem linksOf_eq (h : Similar a b) (ha : a.WellFormed) (hb : b.WellFormed)
    (hsimilar : x.Similar y) : a.linksOf x = b.linksOf y := by
  rw [linksOf, linksOf, hsimilar.superclass?, h.idOf?_eq ha hb]
  congr 1
  refine hsimilar.body.filterMap_constraints fun constraint => ?_
  rw [Constraint.target?_unlabelled]

theorem linkGraph_eq (h : Similar a b) (ha : a.WellFormed) (hb : b.WellFormed) :
    a.linkGraph = b.linkGraph := by
  have hlinks : a.toList.map (fun cls => (a.linksOf cls).filterMap ClassId.index?) =
      b.toList.map fun cls => (b.linksOf cls).filterMap ClassId.index? :=
    map_eq_map_of_forall₂ h fun x y hsimilar => by rw [h.linksOf_eq ha hb hsimilar]
  rw [linkGraph, linkGraph]
  congr 1
  exact Array.toList_inj.1 (by simpa [toList] using hlinks)

end Similar

/-- The first class that declares a variable has the same name in similar lists. -/
theorem map_name_find?_eq {lineage others : List FuzzyClass}
    (h : List.Forall₂ FuzzyClass.Similar lineage others) (symbol : String) :
    (lineage.find? (·.declares symbol)).map (·.name) =
      (others.find? (·.declares symbol)).map (·.name) := by
  induction h with
  | nil => rfl
  | @cons x y _ _ hsimilar _ ih =>
    rw [List.find?_cons, List.find?_cons, hsimilar.declares_eq]
    cases y.declares symbol with
    | true => exact congrArg some hsimilar.name
    | false => exact ih

/-- A variable is found in classes of the same name, or in both registries nowhere. -/
theorem Similar.exists_findVariable (h : Similar a b) (ha : a.WellFormed) (hb : b.WellFormed)
    (id : ClassId) (symbol : String) :
    ∃ scope : Option String, (·.map (·.name)) <$> a.findVariable id symbol = .ok scope ∧
      (·.map (·.name)) <$> b.findVariable id symbol = .ok scope := by
  cases hheld : a.holds id with
  | false =>
    have hheld' : b.holds id = false := h.holds_eq id ▸ hheld
    refine ⟨none, ?_, ?_⟩
    · rw [findVariable, Registry.lineage, hheld]
      rfl
    · rw [findVariable, Registry.lineage, hheld']
      rfl
  | true =>
    obtain ⟨cls, hget⟩ := holds_iff.1 hheld
    obtain ⟨classes, habove⟩ := ha.exists_lineage_superclass hget
    have hlineage : Lineage a (some id) ((id, cls) :: classes) := .above hget habove
    obtain ⟨others, hothers, hall⟩ := h.exists_lineage hlineage
    have hsame := map_name_find?_eq hall symbol
    refine ⟨((others.map Prod.snd).find? (·.declares symbol)).map (·.name), ?_, ?_⟩
    · rw [findVariable, ha.lineage_eq_ok hlineage, Except.map_ok, Except.map_ok, hsame]
    · rw [findVariable, hb.lineage_eq_ok hothers, Except.map_ok, Except.map_ok]

end Registry

end FuzzyHierarchy
