import FuzzyHierarchy.Proofs.Graph.Extension
import FuzzyHierarchy.Proofs.Registry.Lineage
import FuzzyHierarchy.Proofs.Registry.LinkGraph

/-
Registries that go on from another one. The classes that are there already keep their ids and their
names, so all that is looked up from them stays as it is: their superclasses, the targets of their
relations if these were registered, and with them their links.
-/

namespace FuzzyHierarchy

namespace Registry

/-- The registry `b` begins with the classes of `a`. -/
def Extends (a b : Registry) : Prop := a.toList <+: b.toList

variable {a b : Registry} {cls : FuzzyClass} {id : ClassId} {name : String}

namespace Extends

theorem get?_eq_some (h : Extends a b) (hget : a.get? id = some cls) : b.get? id = some cls := by
  obtain ⟨i, rfl, hi⟩ := get?_eq_some_iff.1 hget
  obtain ⟨hlt, hcls⟩ := List.getElem?_eq_some_iff.1 hi
  rw [get?_entry, List.prefix_iff_getElem?.1 h i hlt, hcls]

theorem idOf?_eq_some (h : Extends a b) (ha : a.WellFormed) (hb : b.WellFormed)
    (hid : a.idOf? name = some id) : b.idOf? name = some id := by
  obtain ⟨cls, hget, hname⟩ := ha.idOf?_eq_some_iff.1 hid
  exact hb.idOf?_eq_some_iff.2 ⟨cls, h.get?_eq_some hget, hname⟩

theorem placed_prefix (h : Extends a b) : a.placed <+: b.placed := by
  obtain ⟨later, hlater⟩ := h
  rw [placed, placed, ← hlater, List.zipIdx_append, List.map_append]
  exact List.prefix_append _ _

/-- The way up from a class of the smaller registry stays the same. -/
theorem lineage (h : Extends a b) {start : Option ClassId} {classes : List (ClassId × FuzzyClass)}
    (hlineage : Lineage a start classes) : Lineage b start classes := by
  induction hlineage with
  | top => exact .top
  | above hget _ ih => exact .above (h.get?_eq_some hget) ih

/-- A class has the same ancestors in the larger registry. -/
theorem exists_ancestors (h : Extends a b) (ha : a.WellFormed) (hb : b.WellFormed)
    (hget : a.get? id = some cls) :
    ∃ above, a.ancestors id = .ok above ∧ b.ancestors id = .ok above := by
  obtain ⟨classes, habove⟩ := ha.exists_lineage_superclass hget
  exact ⟨_, ha.ancestors_eq_ok hget habove,
    hb.ancestors_eq_ok (h.get?_eq_some hget) (h.lineage habove)⟩

/-- Symbols are looked for in the same classes. -/
theorem exists_lineage (h : Extends a b) (ha : a.WellFormed) (hb : b.WellFormed)
    (hget : a.get? id = some cls) :
    ∃ classes, a.lineage id = .ok classes ∧ b.lineage id = .ok classes := by
  obtain ⟨classes, habove⟩ := ha.exists_lineage_superclass hget
  exact ⟨_, ha.lineage_eq_ok (.above hget habove),
    hb.lineage_eq_ok (h.lineage (.above hget habove))⟩

theorem linksOf_eq (h : Extends a b) (ha : a.WellFormed) (hb : b.WellFormed)
    (hconsistent : a.Consistent) (hcls : cls ∈ a.toList) : b.linksOf cls = a.linksOf cls := by
  rw [linksOf, linksOf]
  congr 1
  refine List.filterMap_congr fun constraint hconstraint => ?_
  cases htarget : constraint.target? with
  | none => rfl
  | some target =>
    obtain ⟨-, hresolves⟩ :=
      Constraint.forall_mem_references_iff.1 (hconsistent cls hcls constraint hconstraint)
    obtain ⟨id, hid⟩ := exists_idOf?_of_mem_names (hresolves target htarget).1
    rw [Option.bind_some, Option.bind_some, hid, h.idOf?_eq_some ha hb hid]

/-- The links of a consistent registry stay as they are when it is extended. -/
theorem linkGraph (h : Extends a b) (ha : a.WellFormed) (hb : b.WellFormed)
    (hconsistent : a.Consistent) : a.linkGraph.Extends b.linkGraph where
  size_le := by simpa only [size_linkGraph] using h.length_le
  next_eq n hn := by
    rw [size_linkGraph] at hn
    obtain ⟨cls, hget⟩ := holds_iff.1 (holds_entry_iff.2 hn)
    have hcls := mem_toList_of_get? hget
    rw [next_linkGraph (get?_entry.symm.trans hget),
      next_linkGraph (get?_entry.symm.trans (h.get?_eq_some hget)),
      h.linksOf_eq ha hb hconsistent hcls]

/-- A class lies on a cycle of the larger registry exactly when it did before. -/
theorem leadsBack_iff (h : Extends a b) (ha : a.WellFormed) (hb : b.WellFormed)
    (hconsistent : a.Consistent) (hheld : a.holds id = true) : b.LeadsBack id ↔ a.LeadsBack id := by
  cases id with
  | entry i =>
    rw [ha.leadsBack_iff_onCycle, hb.leadsBack_iff_onCycle]
    refine (h.linkGraph ha hb hconsistent).onCycle_iff ha.closed_linkGraph ?_
    exact (holds_entry_iff.1 hheld).trans_eq size_linkGraph.symm
  | null => exact absurd hheld not_holds_null

end Extends

end Registry

end FuzzyHierarchy
