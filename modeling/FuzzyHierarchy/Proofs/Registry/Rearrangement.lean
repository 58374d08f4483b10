import FuzzyHierarchy.Proofs.Registry.Registrations
import FuzzyHierarchy.Proofs.Registry.Violations

/-
Registries that hold the same registrations in different orders. Their ids differ, and so do the
ways in which they are searched, but what is told by names is the same.

Main statements: the violations and the dependencies are the same up to their order, the
dependencies of one class are the same, all that is looked up from a class is the same, and the same
classes lead back to themselves.
-/

namespace FuzzyHierarchy

/-- Lists whose values are the same up to their order, seen through two functions, are expanded to
the same values up to their order by what these functions determine. -/
theorem flatMap_perm_of_map_perm {α β γ δ : Type} {f : α → γ} {g : β → γ} {p : α → List δ}
    {q : β → List δ} (hsame : ∀ x y, f x = g y → p x = q y) {xs : List α} {ys : List β}
    (h : (xs.map f).Perm (ys.map g)) : (xs.flatMap p).Perm (ys.flatMap q) := by
  induction xs generalizing ys with
  | nil =>
    rw [List.map_nil, List.nil_perm, List.map_eq_nil_iff] at h
    rw [h]
    exact .nil
  | cons x xs ih =>
    obtain ⟨y, hy, heq⟩ := List.mem_map.1 (h.subset List.mem_cons_self)
    obtain ⟨earlier, later, rfl⟩ := List.append_of_mem hy
    -- the value that `x` corresponds to is moved to the front
    have hrest : (xs.map f).Perm ((earlier ++ later).map g) := by
      have hfront := h.trans (List.perm_middle.map g)
      rw [List.map_cons, List.map_cons, heq] at hfront
      exact hfront.cons_inv
    have hexpanded : (p x ++ xs.flatMap p).Perm (q y ++ (earlier ++ later).flatMap q) :=
      hsame x y heq.symm ▸ (ih hrest).append_left (p x)
    exact hexpanded.trans (List.perm_middle.flatMap_right q).symm

namespace Registry

/-- The registries hold the same registrations, each in its own order. -/
def Rearranges (a b : Registry) : Prop := a.registrations.Perm b.registrations

variable {a b : Registry} {x y : FuzzyClass} {name : String}

/-- What two registries answer about the class that holds the id `i` in `a` and the id `j` in `b` is
the same, with classes told as registrations and ids as names. -/
structure AlikeAt (a b : Registry) (i j : ClassId) : Prop where
  superclass : ∃ parent, (·.map a.registrationOf) <$> a.superclassOf? i = .ok parent ∧
    (·.map b.registrationOf) <$> b.superclassOf? j = .ok parent
  ancestors : ∃ above : List String, (·.map a.nameOf?) <$> a.ancestors i = .ok (above.map some) ∧
    (·.map b.nameOf?) <$> b.ancestors j = .ok (above.map some)
  findVariable : ∀ symbol, ∃ scope,
    (·.map a.registrationOf) <$> a.findVariable i symbol = .ok scope ∧
    (·.map b.registrationOf) <$> b.findVariable j symbol = .ok scope
  findConstant : ∀ symbol, ∃ scope,
    (·.map fun found => (a.registrationOf found.1, found.2)) <$> a.findConstant i symbol =
      .ok scope ∧
    (·.map fun found => (b.registrationOf found.1, found.2)) <$> b.findConstant j symbol = .ok scope

namespace Rearranges

theorem symm (h : Rearranges a b) : Rearranges b a := List.Perm.symm h

theorem mem_names_iff (h : Rearranges a b) (ha : a.WellFormed) (hb : b.WellFormed) :
    name ∈ a.names ↔ name ∈ b.names := by
  rw [ha.names_eq_map_registrations, hb.names_eq_map_registrations]
  exact (List.Perm.map _ h).mem_iff

theorem exists_of_mem (h : Rearranges a b) (hx : x ∈ a.toList) :
    ∃ y ∈ b.toList, b.registrationOf y = a.registrationOf x :=
  List.mem_map.1 (List.Perm.subset h (List.mem_map_of_mem hx))

/-! ## Violations and dependencies -/

theorem resolves_of_resolves (h : Rearranges a b) (ha : a.WellFormed) (hb : b.WellFormed)
    (hsame : a.registrationOf x = b.registrationOf y)
    {reference : Reference} (hresolves : a.Resolves x reference) : b.Resolves y reference := by
  have hvars : x.vars = y.vars := congrArg (·.vars) hsame
  cases reference with
  | ownVariable name =>
    rw [Resolves, ← hvars]
    exact hresolves
  | targetClass target => exact (h.mem_names_iff ha hb).1 hresolves
  | targetVariable target name =>
    obtain ⟨scope, hscope, rfl, hvar⟩ := hresolves
    obtain ⟨found, hfound, heq⟩ := h.exists_of_mem hscope
    have hscopeVars : found.vars = scope.vars := congrArg (·.vars) heq
    exact ⟨found, hfound, congrArg (·.name) heq, hscopeVars ▸ hvar⟩

theorem violation?_eq (h : Rearranges a b) (ha : a.WellFormed) (hb : b.WellFormed)
    (hsame : a.registrationOf x = b.registrationOf y) (constraint : Constraint) :
    a.violation? x constraint = b.violation? y constraint := by
  have hname : x.name = y.name := congrArg (·.name) hsame
  have hresolves : ∀ reference, a.Resolves x reference ↔ b.Resolves y reference := fun _ =>
    ⟨h.resolves_of_resolves ha hb hsame, h.symm.resolves_of_resolves hb ha hsame.symm⟩
  have hviolation : Reference.violation x = Reference.violation y := by
    funext reference
    cases reference <;> simp only [Reference.violation, hname]
  simp only [violation?, hresolves, hviolation]

theorem violations_perm (h : Rearranges a b) (ha : a.WellFormed) (hb : b.WellFormed) :
    a.violations.Perm b.violations := by
  rw [violations_eq_flatMap, violations_eq_flatMap]
  refine flatMap_perm_of_map_perm (fun x y hsame => ?_) h
  have hconstraints : x.constraints = y.constraints := congrArg (·.constraints) hsame
  rw [hconstraints]
  exact List.filterMap_congr fun constraint _ => h.violation?_eq ha hb hsame constraint

theorem dependencies_eq (hsame : a.registrationOf x = b.registrationOf y) :
    x.dependencies = y.dependencies := by
  have hname : x.name = y.name := congrArg (·.name) hsame
  have hconstraints : x.constraints = y.constraints := congrArg (·.constraints) hsame
  simp only [FuzzyClass.dependencies, Constraint.dependency?, hname, hconstraints]

theorem dependencies_perm (h : Rearranges a b) :
    (a.toList.flatMap FuzzyClass.dependencies).Perm (b.toList.flatMap FuzzyClass.dependencies) :=
  flatMap_perm_of_map_perm (fun _ _ => dependencies_eq) h

/-- The dependencies of one class come in the same order. -/
theorem filter_owner_eq (h : Rearranges a b) (ha : a.WellFormed) (hb : b.WellFormed)
    (name : String) :
    (a.toList.flatMap FuzzyClass.dependencies).filter (·.owner == name) =
      (b.toList.flatMap FuzzyClass.dependencies).filter (·.owner == name) := by
  by_cases hname : name ∈ a.names
  · obtain ⟨x, hx, rfl⟩ := ha.mem_names_iff.1 hname
    obtain ⟨y, hy, hsame⟩ := h.exists_of_mem hx
    have hyx : y.name = x.name := congrArg (·.name) hsame
    rw [ha.filter_owner_eq_dependencies hx, ← hyx, hb.filter_owner_eq_dependencies hy,
      dependencies_eq hsame]
  · rw [ha.filter_owner_eq_nil hname, hb.filter_owner_eq_nil (mt (h.mem_names_iff ha hb).2 hname)]

/-! ## The way up, and back -/

/-- The way up from a class leads through the same registrations. -/
theorem lineage_eq (h : Rearranges a b) (hb : b.WellFormed) {start start' : Option ClassId}
    {classes classes' : List (ClassId × FuzzyClass)} (hlineage : Lineage a start classes)
    (hlineage' : Lineage b start' classes')
    (hstart : start.bind a.nameOf? = start'.bind b.nameOf?) :
    (classes.map Prod.snd).map a.registrationOf =
      (classes'.map Prod.snd).map b.registrationOf := by
  have hnames := hb.names_eq_map_registrations ▸ hb.names_nodup
  refine Registration.Ancestry.unique hnames ?_ hlineage'.ancestry
  exact hstart ▸ hlineage.ancestry.of_subset (List.Perm.subset h)

theorem alikeAt (h : Rearranges a b) (ha : a.WellFormed) (hb : b.WellFormed) {i j : ClassId}
    (hi : a.idOf? name = some i) (hj : b.idOf? name = some j) : AlikeAt a b i j := by
  obtain ⟨x, hx, hxname⟩ := ha.idOf?_eq_some_iff.1 hi
  obtain ⟨y, hy, hyname⟩ := hb.idOf?_eq_some_iff.1 hj
  obtain ⟨above, habove⟩ := ha.exists_lineage_superclass hx
  obtain ⟨above', habove'⟩ := hb.exists_lineage_superclass hy
  have hnamed : (some i).bind a.nameOf? = (some j).bind b.nameOf? := by
    rw [Option.bind_some, Option.bind_some, ha.nameOf?_eq_some_iff.2 hi,
      hb.nameOf?_eq_some_iff.2 hj]
  have hpath := h.lineage_eq hb (.above hx habove) (.above hy habove') hnamed
  have hupper : (above.map Prod.snd).map a.registrationOf =
      (above'.map Prod.snd).map b.registrationOf := (List.cons.inj hpath).2
  constructor
  · exact ⟨_, ha.map_superclassOf? hx habove, hupper ▸ hb.map_superclassOf? hy habove'⟩
  · refine ⟨((above.map Prod.snd).map a.registrationOf).map (·.name), ?_, ?_⟩
    · rw [List.map_map]
      exact ha.map_ancestors hx habove
    · rw [hupper, List.map_map]
      exact hb.map_ancestors hy habove'
  · exact fun symbol => ⟨_, ha.map_findVariable (.above hx habove) symbol,
      hpath ▸ hb.map_findVariable (.above hy habove') symbol⟩
  · exact fun symbol => ⟨_, ha.map_findConstant (.above hx habove) symbol,
      hpath ▸ hb.map_findConstant (.above hy habove') symbol⟩

theorem leadsBack_iff (h : Rearranges a b) (ha : a.WellFormed) (hb : b.WellFormed) {i j : ClassId}
    (hi : a.idOf? name = some i) (hj : b.idOf? name = some j) : a.LeadsBack i ↔ b.LeadsBack j := by
  have hrefers : Registration.Refers a.registrations = Registration.Refers b.registrations := by
    funext m n
    exact propext (Registration.refers_iff_of_perm h)
  rw [ha.leadsBack_iff_refers hi, hb.leadsBack_iff_refers hj, hrefers]

end Rearranges

end Registry

end FuzzyHierarchy
