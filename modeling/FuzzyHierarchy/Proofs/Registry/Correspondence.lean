import FuzzyHierarchy.Proofs.Lists.Related
import FuzzyHierarchy.Proofs.Registry.Lineage

/-
Registries whose classes correspond one by one: they have the same names and the same superclasses,
and what they declare themselves is related in some way. Ids and names lead to corresponding
classes, and registrations that correspond are accepted alike.
-/

namespace FuzzyHierarchy

variable {related : ClassBody → ClassBody → Prop}

/-- The two registrations ask for classes of one name, below the same class, with related bodies. -/
structure Registration.Corresponds (related : ClassBody → ClassBody → Prop) (x y : Registration) :
    Prop where
  name : x.name = y.name
  parent? : x.parent? = y.parent?
  body : related x.toClassBody y.toClassBody

/-- The two classes have one name and one superclass, and related bodies. -/
structure FuzzyClass.Corresponds (related : ClassBody → ClassBody → Prop) (x y : FuzzyClass) :
    Prop where
  name : x.name = y.name
  superclass? : x.superclass? = y.superclass?
  body : related x.toClassBody y.toClassBody

namespace Registry

/-- The classes of the two registries correspond, one by one. -/
def Corresponds (related : ClassBody → ClassBody → Prop) (a b : Registry) : Prop :=
  List.Forall₂ (FuzzyClass.Corresponds related) a.toList b.toList

variable {a b a' : Registry} {x y : Registration} {id : ClassId} {start : Option ClassId}
  {classes : List (ClassId × FuzzyClass)}

namespace Corresponds

theorem names_eq (h : Corresponds related a b) (ha : a.WellFormed) (hb : b.WellFormed) :
    a.names = b.names := by
  rw [ha.names_eq, hb.names_eq]
  exact map_eq_map_of_forall₂ h fun _ _ hsame => hsame.name

theorem idOf?_eq (h : Corresponds related a b) (ha : a.WellFormed) (hb : b.WellFormed) :
    a.idOf? = b.idOf? :=
  ha.idOf?_eq_of_names_eq hb (h.names_eq ha hb)

theorem holds_eq (h : Corresponds related a b) (id : ClassId) : a.holds id = b.holds id := by
  rw [Bool.eq_iff_iff]
  cases id with
  | entry i => rw [holds_entry_iff, holds_entry_iff, List.Forall₂.length_eq h]
  | null => exact iff_of_false not_holds_null not_holds_null

theorem exists_get? (h : Corresponds related a b) {cls : FuzzyClass} (hget : a.get? id = some cls) :
    ∃ other, b.get? id = some other ∧ cls.Corresponds related other := by
  obtain ⟨i, rfl, hi⟩ := get?_eq_some_iff.1 hget
  obtain ⟨other, hother, hsame⟩ := exists_getElem?_of_forall₂ h hi
  exact ⟨other, get?_entry.trans hother, hsame⟩

/-- The way up from a class leads through corresponding classes. -/
theorem exists_lineage (h : Corresponds related a b) (hlineage : Lineage a start classes) :
    ∃ others, Lineage b start others ∧
      List.Forall₂ (FuzzyClass.Corresponds related) (classes.map Prod.snd)
        (others.map Prod.snd) := by
  induction hlineage with
  | top => exact ⟨[], .top, .nil⟩
  | @above id cls classes hget _ ih =>
    obtain ⟨other, hother, hsame⟩ := h.exists_get? hget
    obtain ⟨others, hothers, hall⟩ := ih
    exact ⟨(id, other) :: others, .above hother (hsame.superclass? ▸ hothers), .cons hsame hall⟩

/-- A registration that corresponds to an accepted one is accepted under the same id. -/
theorem exists_register (h : Corresponds related a b) (ha : a.WellFormed) (hb : b.WellFormed)
    (hcall : x.Corresponds related y) (hregister : (register x).effect a = (.ok id, a')) :
    ∃ b', (register y).effect b = (.ok id, b') ∧ Corresponds related a' b' := by
  obtain ⟨hparent, hfree, rfl, rfl⟩ := register_eq_ok_iff.1 hregister
  have hclass : (a.classOf x).Corresponds related (b.classOf y) := by
    refine ⟨hcall.name, ?_, hcall.body⟩
    rw [classOf, classOf, hcall.parent?, h.idOf?_eq ha hb]
  refine ⟨b.push (b.classOf y), register_eq_ok_iff.2 ⟨?_, ?_, ?_, rfl⟩, ?_⟩
  · rw [← hcall.parent?, ← h.names_eq ha hb]
    exact hparent
  · rw [← hcall.name, ← h.names_eq ha hb]
    exact hfree
  · rw [List.Forall₂.length_eq h]
  · rw [Corresponds, toList_push, toList_push]
    exact List.rel_append h (.cons hclass .nil)

end Corresponds

end Registry

end FuzzyHierarchy
