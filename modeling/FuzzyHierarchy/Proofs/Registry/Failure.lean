import FuzzyHierarchy.Proofs.Registry.Correspondence
import FuzzyHierarchy.Proofs.Registry.Refusal

/-
Where a sweep fails. All references stand in one list, in the order in which a sweep comes to them,
and the first violation is that of the first one that does not resolve.

Main statements: a registry that grows keeps the references in their places and resolves all that
resolved before, so if it has what the first violation is about, it does not fail before a later
place.
-/

namespace FuzzyHierarchy

/-- The second body has the constraints of the first and declares its variables, among others. -/
structure ClassBody.Grows (x y : ClassBody) : Prop where
  constraints : x.constraints = y.constraints
  vars : ∀ name ∈ x.vars, name ∈ y.vars

/-- The references of a class, in the order of its constraints and in checking order. -/
def FuzzyClass.references (cls : FuzzyClass) : List Reference :=
  cls.constraints.toList.flatMap Constraint.references

namespace Registry

variable {registry a b : Registry} {x y : FuzzyClass} {violation : DeclarationError}
  {place later : Nat} {scope name referencedFrom owner target : String}

/-- Every reference with its class, in the order of the sweep. -/
def references (registry : Registry) : List (FuzzyClass × Reference) :=
  registry.toList.flatMap fun cls => cls.references.map (cls, ·)

/-- All references before a place resolve. -/
def ResolvesBefore (registry : Registry) (place : Nat) : Prop :=
  ∀ i < place, ∀ cls reference, registry.references[i]? = some (cls, reference) →
    registry.Resolves cls reference

/-- The reference in a place is the first that does not resolve, and the violation is its own. -/
structure FailsAt (registry : Registry) (place : Nat) (violation : DeclarationError) : Prop where
  resolvesBefore : registry.ResolvesBefore place
  unresolved : ∃ cls reference, registry.references[place]? = some (cls, reference) ∧
    ¬ registry.Resolves cls reference ∧ reference.violation cls = violation

/-- The registry has what a violation is about. -/
def Supplies (registry : Registry) : DeclarationError → Prop
  | .undeclaredVariable scope name _ =>
    ∃ cls ∈ registry.toList, cls.name = scope ∧ name ∈ cls.vars
  | .undeclaredClass _ target => target ∈ registry.names
  | _ => True

/-- The registry `b` has the classes of `a` first, grown, and then classes without constraints. -/
def Grows (a b : Registry) : Prop :=
  ∃ classes others, b.toList = classes ++ others ∧
    List.Forall₂ (FuzzyClass.Corresponds ClassBody.Grows) a.toList classes ∧
      ∀ cls ∈ others, cls.constraints = ∅

theorem mem_of_getElem?_references {reference : Reference}
    (h : registry.references[place]? = some (x, reference)) : x ∈ registry.toList := by
  obtain ⟨cls, hcls, hmem⟩ := List.mem_flatMap.1 (List.mem_of_getElem? h)
  obtain ⟨_, -, heq⟩ := List.mem_map.1 hmem
  exact (Prod.mk.inj heq).1 ▸ hcls

/-! ## The first violation -/

theorem head?_violations (registry : Registry) :
    registry.violations.head? =
      (registry.references.find? fun entry => ¬ registry.Resolves entry.1 entry.2).map
        fun entry => entry.2.violation entry.1 := by
  rw [violations_eq_flatMap, references, List.head?_flatMap, List.find?_flatMap,
    List.map_findSome?]
  congr 1
  funext cls
  simp only [Function.comp_apply, FuzzyClass.references, List.head?_filterMap, List.map_flatMap,
    List.find?_flatMap, List.find?_map, List.map_findSome?]
  congr 1
  funext constraint
  rw [Function.comp_apply, violation?, Option.map_map]
  rfl

theorem head?_violations_eq_some_iff :
    registry.violations.head? = some violation ↔ ∃ place, registry.FailsAt place violation := by
  rw [head?_violations, Option.map_eq_some_iff]
  constructor
  · rintro ⟨⟨cls, reference⟩, hfind, rfl⟩
    obtain ⟨hunresolved, place, hlt, hplace, hbefore⟩ := List.find?_eq_some_iff_getElem.1 hfind
    refine ⟨place, fun i hi other earlier hget => ?_, cls, reference, ?_,
      by simpa using hunresolved, rfl⟩
    · obtain ⟨hlt', hget⟩ := List.getElem?_eq_some_iff.1 hget
      have hresolves := hbefore i hi
      simpa [hget] using hresolves
    · exact List.getElem?_eq_some_iff.2 ⟨hlt, hplace⟩
  · rintro ⟨place, hbefore, cls, reference, hget, hunresolved, rfl⟩
    obtain ⟨hlt, hplace⟩ := List.getElem?_eq_some_iff.1 hget
    refine ⟨(cls, reference), List.find?_eq_some_iff_getElem.2
      ⟨by simpa using hunresolved, place, hlt, hplace, fun i hi => ?_⟩, rfl⟩
    have hresolves := hbefore i hi _ _ (List.getElem?_eq_getElem (Nat.lt_trans hi hlt))
    simpa using hresolves

/-- A registry does not fail at a place before which all references resolve. -/
theorem FailsAt.le (h : registry.FailsAt later violation)
    (hbefore : registry.ResolvesBefore place) : place ≤ later := by
  obtain ⟨cls, reference, hget, hunresolved, -⟩ := h.unresolved
  by_contra hlt
  exact hunresolved (hbefore later (by omega) cls reference hget)

theorem FailsAt.lt_length (h : registry.FailsAt place violation) :
    place < registry.references.length := by
  obtain ⟨cls, reference, hget, -, -⟩ := h.unresolved
  exact (List.getElem?_eq_some_iff.1 hget).1

/-- The violation of a constraint names a class that is there and a variable that it lacks, or a
class that is missing. -/
theorem missing_of_mem_violations (hwf : registry.WellFormed)
    (h : violation ∈ registry.violations) :
    (∃ cls ∈ registry.toList, ∃ name referencedFrom,
      violation = .undeclaredVariable cls.name name referencedFrom ∧ name ∉ cls.vars) ∨
    ∃ owner target, violation = .undeclaredClass owner target ∧ target ∉ registry.names := by
  obtain ⟨⟨cls, constraint⟩, hmem, hviolation⟩ := List.mem_filterMap.1 h
  obtain ⟨hcls, -⟩ := mem_obligations_iff.1 hmem
  cases (violation?_eq_some_iff hwf).1 hviolation with
  | ownVariable hname => exact .inl ⟨cls, hcls, _, _, rfl, by simpa using List.find?_some hname⟩
  | targetClass _ _ hfree => exact .inr ⟨_, _, rfl, hfree⟩
  | targetVariable _ hscope _ hname =>
    exact .inl ⟨_, hscope, _, _, rfl, by simpa using List.find?_some hname⟩

/-! ## Registries that grow -/

namespace Grows

theorem exists_of_mem (h : Grows a b) (hx : x ∈ a.toList) :
    ∃ y ∈ b.toList, x.Corresponds ClassBody.Grows y := by
  obtain ⟨classes, others, happend, hclasses, -⟩ := h
  obtain ⟨y, hy, hsame⟩ := exists_mem_of_forall₂ hclasses hx
  exact ⟨y, happend ▸ List.mem_append_left _ hy, hsame⟩

theorem mem_names (h : Grows a b) (ha : a.WellFormed) (hb : b.WellFormed) (hname : name ∈ a.names) :
    name ∈ b.names := by
  obtain ⟨x, hx, rfl⟩ := ha.mem_names_iff.1 hname
  obtain ⟨y, hy, hsame⟩ := h.exists_of_mem hx
  exact hb.mem_names_iff.2 ⟨y, hy, hsame.name.symm⟩

theorem resolves (h : Grows a b) (ha : a.WellFormed) (hb : b.WellFormed)
    (hsame : x.Corresponds ClassBody.Grows y) {reference : Reference}
    (hresolves : a.Resolves x reference) : b.Resolves y reference := by
  cases reference with
  | ownVariable name => exact hsame.body.vars name hresolves
  | targetClass target => exact h.mem_names ha hb hresolves
  | targetVariable target name =>
    obtain ⟨scope, hscope, rfl, hvar⟩ := hresolves
    obtain ⟨other, hother, hgrown⟩ := h.exists_of_mem hscope
    exact ⟨other, hother, hgrown.name.symm, hgrown.body.vars name hvar⟩

/-- The sweep comes to the same references in the same places. -/
theorem forall₂_references (h : Grows a b) :
    List.Forall₂
      (fun entry other => entry.1.Corresponds ClassBody.Grows other.1 ∧ entry.2 = other.2)
      a.references b.references := by
  obtain ⟨classes, others, happend, hclasses, hothers⟩ := h
  have hnone : others.flatMap (fun cls => cls.references.map (cls, ·)) = [] := by
    rw [List.flatMap_eq_nil_iff]
    intro cls hcls
    rw [FuzzyClass.references, hothers cls hcls]
    rfl
  rw [references, references, happend, List.flatMap_append, hnone, List.append_nil]
  refine List.rel_flatMap hclasses fun x y hsame => ?_
  have hreferences : x.references = y.references := by
    rw [FuzzyClass.references, FuzzyClass.references, hsame.body.constraints]
  rw [hreferences, List.forall₂_map_left_iff, List.forall₂_map_right_iff, List.forall₂_same]
  exact fun reference _ => ⟨hsame, rfl⟩

theorem length_references (h : Grows a b) : b.references.length = a.references.length :=
  h.forall₂_references.length_eq.symm

theorem map_references (h : Grows a b) :
    b.references.map (fun entry => (entry.1.name, entry.2)) =
      a.references.map fun entry => (entry.1.name, entry.2) := by
  refine (map_eq_map_of_forall₂ h.forall₂_references fun entry other hsame => ?_).symm
  rw [hsame.1.name, hsame.2]

/-- Where the violation of the first failure is supplied, the references up to its place resolve. -/
theorem resolvesBefore_succ (h : Grows a b) (ha : a.WellFormed) (hb : b.WellFormed)
    (hfails : a.FailsAt place violation) (hsupplies : b.Supplies violation) :
    b.ResolvesBefore (place + 1) := by
  intro i hi other reference hget
  obtain ⟨⟨cls, reference⟩, hcls, hsame, rfl⟩ :=
    exists_getElem?_of_forall₂ h.forall₂_references.flip hget
  rcases Nat.lt_succ_iff_lt_or_eq.1 hi with hlt | rfl
  · exact h.resolves ha hb hsame (hfails.resolvesBefore i hlt cls _ hcls)
  · obtain ⟨cls, reference, hcls', -, rfl⟩ := hfails.unresolved
    cases hcls.symm.trans hcls'
    cases reference with
    | ownVariable name =>
      -- the class of that name which declares the variable is the one that stands in this place
      obtain ⟨scope, hscope, hname, hvar⟩ := hsupplies
      have hother := mem_of_getElem?_references hget
      obtain rfl := hb.eq_of_name_eq hscope hother (hname.trans hsame.name)
      exact hvar
    | targetClass target => exact hsupplies
    | targetVariable target name => exact hsupplies

end Grows

end Registry

end FuzzyHierarchy
