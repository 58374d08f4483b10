import FuzzyHierarchy.Proofs.Classifier.RegistrationOrder
import FuzzyHierarchy.Proofs.Registry.Registrations

/-
The classes in the order of evaluation. The order holds every id of the registry once, so its
classes can be fetched, and they are the classes of the registry in another order.

Main statements: where no class is cyclic the names of the classes are settled, which is to say that
each comes after all those that it refers to; and a registry whose own names are settled has no link
that leads to a later class.
-/

namespace FuzzyHierarchy

namespace Registration

/-- Every name of the list comes after the names that it refers to. -/
def Settled (registrations : List Registration) (names : List String) : Prop :=
  ∀ before name after, names = before ++ name :: after →
    ∀ other, Refers registrations name other → other ∈ before

theorem Settled.of_perm {registrations others : List Registration} {names : List String}
    (h : Settled registrations names) (hperm : registrations.Perm others) :
    Settled others names := by
  intro before name after hsplit other hrefers
  exact h before name after hsplit other ((refers_iff_of_perm hperm).2 hrefers)

end Registration

namespace Registry

variable {registry : Registry} {schedule : Schedule} {cls : FuzzyClass} {classes : List FuzzyClass}
  {a b id : ClassId} {ids : List ClassId}

theorem WellFormed.map_get?_ids (hwf : registry.WellFormed) :
    registry.ids.map registry.get? = registry.toList.map some := by
  rw [hwf.ids_eq, ← map_fst_placed, ← map_snd_placed, List.map_map, List.map_map]
  exact List.map_congr_left fun entry hentry => mem_placed_iff.1 hentry

/-! ## The classes of an evaluation order -/

namespace Scheduled

theorem order_perm_ids (h : registry.Scheduled schedule) (hwf : registry.WellFormed) :
    schedule.order.Perm registry.ids := by
  have hnodup : registry.ids.Nodup :=
    hwf.ids_eq ▸ List.nodup_range.map ClassId.entry_injective
  rw [List.perm_ext_iff_of_nodup h.nodup hnodup]
  exact fun id => (h.mem_order id).trans hwf.mem_ids_iff.symm

theorem classes_perm (h : registry.Scheduled schedule) (hwf : registry.WellFormed)
    (hclasses : schedule.order.map registry.get? = classes.map some) :
    classes.Perm registry.toList := by
  have hperm := (h.order_perm_ids hwf).map registry.get?
  rw [hclasses, hwf.map_get?_ids] at hperm
  exact (List.map_perm_map_iff (Option.some_injective _)).1 hperm

/-- Without cyclic classes, what a class has a link to comes before it. -/
theorem mem_earlier_of_links (h : registry.Scheduled schedule) (hwf : registry.WellFormed)
    (hnone : schedule.cyclic = []) {earlier later : List ClassId}
    (hsplit : schedule.order = earlier ++ a :: later) (hlinks : registry.Links a b) :
    b ∈ earlier := by
  have hback : ¬ registry.LeadsTo b a := by
    intro hback
    have hcyclic : a ∈ schedule.cyclic := (h.mem_cyclic a).2 (.head' hlinks hback)
    rw [hnone] at hcyclic
    cases hcyclic
  have hmem : b ∈ schedule.order := by
    obtain ⟨_, j, -, rfl, hj⟩ := hwf.exists_entry_of_links hlinks
    exact (h.mem_order _).2 (holds_entry_iff.2 hj)
  rw [hsplit, List.mem_append, List.mem_cons] at hmem
  rcases hmem with hearlier | rfl | hlater
  · exact hearlier
  · exact absurd Relation.ReflTransGen.refl hback
  · -- a class that comes later and is led to would lead back
    have hsettled := h.settled
    rw [hsplit, List.pairwise_append, List.pairwise_cons] at hsettled
    obtain ⟨-, ⟨hleads, -⟩, -⟩ := hsettled
    exact absurd (hleads b hlater (.single hlinks)) hback

/-- Without cyclic classes, the names of the classes in the order of evaluation are settled. -/
theorem settled_names (h : registry.Scheduled schedule) (hwf : registry.WellFormed)
    (hnone : schedule.cyclic = [])
    (hclasses : schedule.order.map registry.get? = classes.map some) :
    Registration.Settled registry.registrations (classes.map (·.name)) := by
  intro before name after hsplit other hrefers
  obtain ⟨nearer, rest, rfl, rfl, hrest⟩ := List.map_eq_append_iff.1 hsplit
  obtain ⟨cls, farther, rfl, rfl, rfl⟩ := List.map_eq_cons_iff.1 hrest
  rw [List.map_append, List.map_cons] at hclasses
  obtain ⟨earlier, ids, hids, hearlier, hlater⟩ := List.map_eq_append_iff.1 hclasses
  obtain ⟨a, later, rfl, ha, -⟩ := List.map_eq_cons_iff.1 hlater
  -- the name refers to another one where its class has a link to the class of the other
  have ⟨_, _, _, _, hknown⟩ := hrefers
  rw [← hwf.names_eq_map_registrations] at hknown
  obtain ⟨b, hb⟩ := exists_idOf?_of_mem_names hknown
  have hid : registry.idOf? cls.name = some a :=
    hwf.idOf?_eq_some_iff.2 ⟨cls, ha, rfl⟩
  have hmem := h.mem_earlier_of_links hwf hnone hids ((hwf.links_iff_refers hid hb).2 hrefers)
  obtain ⟨scope, hget, hname⟩ := hwf.idOf?_eq_some_iff.1 hb
  have hscope : some scope ∈ nearer.map some := by
    rw [← hearlier, ← hget]
    exact List.mem_map_of_mem hmem
  obtain ⟨_, hnearer, ⟨⟩⟩ := List.mem_map.1 hscope
  exact List.mem_map.2 ⟨scope, hnearer, hname⟩

end Scheduled

/-! ## Registries in a settled order -/

/-- Where the names are settled as they are registered, every link leads to an earlier class. -/
theorem WellFormed.backward_of_settled (hwf : registry.WellFormed)
    (h : Registration.Settled registry.registrations registry.names) :
    registry.linkGraph.Backward := by
  intro u v hedge
  have hlinks := links_entry_iff_edge.2 hedge
  have ⟨cls, hcls, _⟩ := hlinks
  obtain ⟨_, _, -, hv, hlt⟩ := hwf.exists_entry_of_links hlinks
  cases hv
  obtain ⟨other, hother⟩ := holds_iff.1 (holds_entry_iff.2 hlt)
  have hrefers : Registration.Refers registry.registrations cls.name other.name :=
    (hwf.links_iff_refers (hwf.idOf?_eq_some_iff.2 ⟨cls, hcls, rfl⟩)
      (hwf.idOf?_eq_some_iff.2 ⟨other, hother, rfl⟩)).1 hlinks
  rw [get?_entry] at hcls hother
  have hu : u < registry.names.length := by
    simpa [hwf.names_eq] using (List.getElem?_eq_some_iff.1 hcls).1
  have hname : registry.names[u] = cls.name := by
    simpa [hwf.names_eq] using congrArg FuzzyClass.name (List.getElem?_eq_some_iff.1 hcls).2
  -- the name of the other class is there before place `u`, and it is there once
  have hbefore := h (registry.names.take u) cls.name (registry.names.drop (u + 1))
    (by rw [← hname, List.getElem_cons_drop, List.take_append_drop]) other.name hrefers
  obtain ⟨w, hw, hsame⟩ := List.mem_take_iff_getElem.1 hbefore
  have hv : registry.names[v]? = some other.name := by simp [hwf.names_eq, hother]
  have hplace : w = v := by
    refine (List.getElem?_inj (by omega) hwf.names_nodup).1 ?_
    rw [hv, ← hsame, List.getElem?_eq_getElem]
  omega

end Registry

end FuzzyHierarchy
