import FuzzyHierarchy.Findings
import FuzzyHierarchy.Proofs.Registry.Lookup

/-
The names that a constraint uses, in the order in which they are checked, and what each of them
needs to find in the registry: own variables first, then the target class, then the variables of the
target. A variable has to be declared by its class itself.

A registry where all of them are there is consistent, and then the dependencies of its classes are
between registered classes.
-/

namespace FuzzyHierarchy

/-- A name that a constraint uses. -/
inductive Reference where
  /-- A variable of the class that owns the constraint. -/
  | ownVariable (name : String)
  /-- The target class of a relation. -/
  | targetClass (target : String)
  /-- A variable of the target class. -/
  | targetVariable (target name : String)
  deriving DecidableEq, Repr

namespace Constraint

/-- The references of a constraint in checking order: own variables, target class, target
variables. -/
def references (constraint : Constraint) : List Reference :=
  constraint.ownVariables.map .ownVariable ++
    match constraint.target? with
    | none => []
    | some target =>
      .targetClass target :: constraint.targetVariables.map (.targetVariable target)

/-- The dependency of a constraint that resolves; a simple feature has none. -/
def dependency? (constraint : Constraint) (owner : FuzzyClass) : Option Dependency :=
  constraint.target?.map fun target => { owner := owner.name, target }

/-- The references of a constraint are its own variables and, if it has a target, the target class
and the variables of the target. -/
theorem forall_mem_references_iff {constraint : Constraint} {holds : Reference → Prop} :
    (∀ reference ∈ constraint.references, holds reference) ↔
      (∀ name ∈ constraint.ownVariables, holds (.ownVariable name)) ∧
        ∀ target ∈ constraint.target?, holds (.targetClass target) ∧
          ∀ name ∈ constraint.targetVariables, holds (.targetVariable target name) := by
  rw [references, List.forall_mem_append, List.forall_mem_map]
  cases constraint.target? with
  | none => simp
  | some target => simp

end Constraint

namespace FuzzyClass

/-- The dependencies of a class: one for each relation, in the order of its constraints. -/
def dependencies (cls : FuzzyClass) : List Dependency :=
  cls.constraints.toList.filterMap (·.dependency? cls)

theorem owner_of_mem_dependencies {cls : FuzzyClass} {dependency : Dependency}
    (h : dependency ∈ cls.dependencies) : dependency.owner = cls.name := by
  obtain ⟨constraint, -, hdependency⟩ := List.mem_filterMap.1 h
  obtain ⟨target, -, rfl⟩ := Option.map_eq_some_iff.1 hdependency
  rfl

variable {cls : FuzzyClass} {classes : List FuzzyClass} {name : String}

theorem filter_owner_eq_nil (hfree : name ∉ classes.map (·.name)) :
    (classes.flatMap dependencies).filter (·.owner == name) = [] := by
  rw [List.filter_eq_nil_iff]
  intro dependency hmem
  obtain ⟨other, hother, hmem⟩ := List.mem_flatMap.1 hmem
  rw [owner_of_mem_dependencies hmem, beq_iff_eq]
  exact fun heq => hfree (List.mem_map.2 ⟨other, hother, heq⟩)

/-- The dependencies of one class, among those of classes with distinct names. -/
theorem filter_owner_eq_dependencies (hnames : (classes.map (·.name)).Nodup)
    (hcls : cls ∈ classes) :
    (classes.flatMap dependencies).filter (·.owner == cls.name) = cls.dependencies := by
  have hself : cls.dependencies.filter (·.owner == cls.name) = cls.dependencies :=
    List.filter_eq_self.2 fun dependency hmem => beq_iff_eq.2 (owner_of_mem_dependencies hmem)
  obtain ⟨earlier, later, rfl⟩ := List.append_of_mem hcls
  simp only [List.map_append, List.map_cons, List.nodup_append, List.nodup_cons] at hnames
  obtain ⟨-, ⟨hlater, -⟩, hearlier⟩ := hnames
  have hbefore : cls.name ∉ earlier.map (·.name) := fun hmem =>
    hearlier _ hmem _ List.mem_cons_self rfl
  rw [List.flatMap_append, List.flatMap_cons, List.filter_append, List.filter_append,
    filter_owner_eq_nil hbefore, filter_owner_eq_nil hlater, List.nil_append, List.append_nil,
    hself]

end FuzzyClass

namespace Registry

variable {registry : Registry} {owner cls : FuzzyClass}

/-! ## What resolves -/

/-- What a reference of a constraint of `owner` needs. -/
def Resolves (registry : Registry) (owner : FuzzyClass) : Reference → Prop
  | .ownVariable name => name ∈ owner.vars
  | .targetClass target => target ∈ registry.names
  | .targetVariable target name =>
    ∃ scope ∈ registry.toList, scope.name = target ∧ name ∈ scope.vars

instance (registry : Registry) (owner : FuzzyClass) :
    (reference : Reference) → Decidable (registry.Resolves owner reference)
  | .ownVariable name => inferInstanceAs (Decidable (name ∈ owner.vars))
  | .targetClass target => inferInstanceAs (Decidable (target ∈ registry.names))
  | .targetVariable target name =>
    inferInstanceAs (Decidable (∃ scope ∈ registry.toList, scope.name = target ∧ name ∈ scope.vars))

/-- Every reference of every constraint resolves. -/
def Consistent (registry : Registry) : Prop :=
  ∀ owner ∈ registry.toList, ∀ constraint ∈ owner.constraints.toList,
    ∀ reference ∈ constraint.references, registry.Resolves owner reference

/-- Every constraint with its owner, in the order of the sweep. -/
def obligations (registry : Registry) : List (FuzzyClass × Constraint) :=
  registry.toList.flatMap fun owner => owner.constraints.toList.map (owner, ·)

theorem mem_obligations_iff {constraint : Constraint} :
    (owner, constraint) ∈ registry.obligations ↔
      owner ∈ registry.toList ∧ constraint ∈ owner.constraints.toList := by
  simp [obligations]

/-! ## Dependencies -/

namespace WellFormed

variable (hwf : registry.WellFormed)

include hwf

theorem filter_owner_eq_nil {name : String} (hfree : name ∉ registry.names) :
    (registry.toList.flatMap FuzzyClass.dependencies).filter (·.owner == name) = [] :=
  FuzzyClass.filter_owner_eq_nil (hwf.names_eq ▸ hfree)

theorem filter_owner_eq_dependencies (hcls : cls ∈ registry.toList) :
    (registry.toList.flatMap FuzzyClass.dependencies).filter (·.owner == cls.name) =
      cls.dependencies :=
  FuzzyClass.filter_owner_eq_dependencies (hwf.names_eq ▸ hwf.names_nodup) hcls

end WellFormed

/-- The dependencies of a consistent registry are between registered classes. -/
theorem Consistent.mem_names (h : registry.Consistent) (hwf : registry.WellFormed)
    {dependency : Dependency}
    (hmem : dependency ∈ registry.toList.flatMap FuzzyClass.dependencies) :
    dependency.owner ∈ registry.names ∧ dependency.target ∈ registry.names := by
  obtain ⟨cls, hcls, hmem⟩ := List.mem_flatMap.1 hmem
  obtain ⟨constraint, hconstraint, hdependency⟩ := List.mem_filterMap.1 hmem
  obtain ⟨target, htarget, rfl⟩ := Option.map_eq_some_iff.1 hdependency
  obtain ⟨-, hresolves⟩ :=
    Constraint.forall_mem_references_iff.1 (h cls hcls constraint hconstraint)
  exact ⟨hwf.mem_names_iff.2 ⟨cls, hcls, rfl⟩, (hresolves target htarget).1⟩

end Registry

end FuzzyHierarchy
