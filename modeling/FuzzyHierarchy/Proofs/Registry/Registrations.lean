import FuzzyHierarchy.Proofs.Registry.Extension

/-
A registry without its ids: the registrations that its classes come from, with every superclass by
its name. The way up from a class and the paths of links between classes can be told in terms of
which registrations there are, and then it does not matter in what order they came.

Main statements: a registration adds itself to the registrations and changes none before it; a
lineage is the one ancestry that the registrations allow; and a class leads back to itself exactly
when its name does in the registrations.
-/

namespace FuzzyHierarchy

namespace Registration

/-- The registration with no superclass where it has the empty name for one. -/
def canonical (registration : Registration) : Registration :=
  { registration with superclass? := registration.parent? }

/-- The names that a class refers to: its superclass, then the targets of its relations. -/
def refersTo (registration : Registration) : List String :=
  registration.superclass?.toList ++ registration.constraints.toList.filterMap (·.target?)

variable {registrations others : List Registration} {start : Option String}
  {above above' : List Registration}

/-- The registrations on the way up from the class called `start`, nearest first. -/
inductive Ancestry (registrations : List Registration) : Option String → List Registration → Prop
  | top : Ancestry registrations none []
  | above {registration : Registration} {above : List Registration} :
    registration ∈ registrations → Ancestry registrations registration.superclass? above →
      Ancestry registrations (some registration.name) (registration :: above)

/-- The class called `a` refers to a class called `b`. -/
def Refers (registrations : List Registration) (a b : String) : Prop :=
  ∃ registration ∈ registrations, registration.name = a ∧ b ∈ registration.refersTo ∧
    b ∈ registrations.map (·.name)

theorem Ancestry.of_subset (h : Ancestry registrations start above)
    (hsubset : registrations ⊆ others) : Ancestry others start above := by
  induction h with
  | top => exact .top
  | above hmem _ ih => exact .above (hsubset hmem) ih

/-- Where names are distinct there is one way up. -/
theorem Ancestry.unique (hnames : (registrations.map (·.name)).Nodup)
    (h : Ancestry registrations start above) (h' : Ancestry registrations start above') :
    above = above' := by
  induction h generalizing above' with
  | top => cases h'; rfl
  | @above registration above hmem _ ih =>
    generalize hstart : some registration.name = start at h'
    cases h' with
    | top => cases hstart
    | @above other above' hmem' hrest =>
      obtain rfl := List.inj_on_of_nodup_map hnames hmem hmem' (Option.some.inj hstart)
      rw [ih hrest]

theorem refers_iff_of_perm (h : registrations.Perm others) {a b : String} :
    Refers registrations a b ↔ Refers others a b := by
  simp only [Refers, h.mem_iff, (h.map _).mem_iff]

end Registration

namespace Registry

variable {registry next a b : Registry} {registration : Registration} {cls : FuzzyClass}
  {id : ClassId} {name : String} {start : Option ClassId} {classes : List (ClassId × FuzzyClass)}

/-- The name of the class that holds an id. -/
def nameOf? (registry : Registry) (id : ClassId) : Option String :=
  (registry.get? id).map (·.name)

/-- A class with the name of its superclass in place of the id. -/
def registrationOf (registry : Registry) (cls : FuzzyClass) : Registration :=
  { cls with superclass? := cls.superclass?.bind registry.nameOf? }

/-- The registrations that a registry holds, in their order. -/
def registrations (registry : Registry) : List Registration :=
  registry.toList.map registry.registrationOf

theorem nameOf?_of_get? (h : registry.get? id = some cls) :
    registry.nameOf? id = some cls.name :=
  Option.map_eq_some_iff.2 ⟨cls, h, rfl⟩

theorem WellFormed.names_eq_map_registrations (hwf : registry.WellFormed) :
    registry.names = registry.registrations.map (·.name) := by
  rw [hwf.names_eq, registrations, List.map_map]
  rfl

theorem WellFormed.nameOf?_eq_some_iff (hwf : registry.WellFormed) :
    registry.nameOf? id = some name ↔ registry.idOf? name = some id := by
  rw [nameOf?, Option.map_eq_some_iff, hwf.idOf?_eq_some_iff]

/-! ## Registering -/

/-- The superclass of a class is there. -/
theorem WellFormed.exists_superclass (hwf : registry.WellFormed) (hcls : cls ∈ registry.toList)
    {parent : ClassId} (hsuper : cls.superclass? = some parent) :
    ∃ above, registry.get? parent = some above := by
  obtain ⟨i, hi⟩ := List.mem_iff_getElem?.1 hcls
  obtain ⟨j, hj, rfl⟩ := hwf.superclass_earlier i cls parent (get?_entry.trans hi) hsuper
  obtain ⟨hlt, -⟩ := List.getElem?_eq_some_iff.1 hi
  exact holds_iff.1 (holds_entry_iff.2 (Nat.lt_trans hj hlt))

/-- The classes can be made of the registrations again, each superclass looked up by its name. -/
theorem WellFormed.map_registrations (hwf : registry.WellFormed) :
    registry.registrations.map (fun registration => ({ registration with
      superclass? := registration.superclass?.bind registry.idOf? } : FuzzyClass)) =
        registry.toList := by
  rw [registrations, List.map_map]
  refine (List.map_congr_left fun cls hcls => ?_).trans (List.map_id _)
  obtain ⟨body, name, superclass?⟩ := cls
  cases superclass? with
  | none => rfl
  | some parent =>
    obtain ⟨above, habove⟩ := hwf.exists_superclass hcls rfl
    have hname := nameOf?_of_get? habove
    have hid := hwf.nameOf?_eq_some_iff.1 hname
    simp [registrationOf, hname, hid]

/-- A registry is known by its registrations. -/
theorem WellFormed.eq_of_registrations (ha : a.WellFormed) (hb : b.WellFormed)
    (h : a.registrations = b.registrations) : a = b := by
  have hnames : a.names = b.names := by
    rw [ha.names_eq_map_registrations, hb.names_eq_map_registrations, h]
  have hclasses : a.toList = b.toList := by
    rw [← ha.map_registrations, ← hb.map_registrations, h, ha.idOf?_eq_of_names_eq hb hnames]
  refine Registry.ext hclasses ?_
  rw [ha.in_step, hb.in_step, placed, placed, hclasses]

theorem WellFormed.registrationOf_eq_of_extends (hwf : a.WellFormed) (h : a.Extends b)
    (hcls : cls ∈ a.toList) : b.registrationOf cls = a.registrationOf cls := by
  rw [registrationOf, registrationOf]
  congr 1
  cases hsuper : cls.superclass? with
  | none => rfl
  | some parent =>
    obtain ⟨above, hget⟩ := hwf.exists_superclass hcls hsuper
    rw [Option.bind_some, Option.bind_some, nameOf?_of_get? hget,
      nameOf?_of_get? (h.get?_eq_some hget)]

theorem WellFormed.registrations_register (hwf : registry.WellFormed)
    (hregister : (Registry.register registration).effect registry = (.ok id, next)) :
    next.registrations = registry.registrations ++ [registration.canonical] := by
  have hnextwf := hwf.register hregister
  obtain ⟨hparent, -, -, hpush⟩ := register_eq_ok_iff.1 hregister
  have hnext : next.toList = registry.toList ++ [registry.classOf registration] := by
    rw [hpush, toList_push]
  have hextends : registry.Extends next := ⟨_, hnext.symm⟩
  have hnew : next.registrationOf (registry.classOf registration) = registration.canonical := by
    rw [registrationOf, classOf, Registration.canonical]
    congr 1
    cases hasked : registration.parent? with
    | none => rfl
    | some parent =>
      obtain ⟨found, hfound⟩ := exists_idOf?_of_mem_names (hparent parent hasked)
      rw [Option.bind_some, hfound, Option.bind_some,
        hnextwf.nameOf?_eq_some_iff]
      exact hextends.idOf?_eq_some hwf hnextwf hfound
  rw [registrations, hnext, List.map_append, List.map_singleton, hnew, registrations]
  congr 1
  exact List.map_congr_left fun cls => hwf.registrationOf_eq_of_extends hextends

/-! ## The way up -/

theorem Lineage.ancestry (h : Lineage registry start classes) :
    Registration.Ancestry registry.registrations (start.bind registry.nameOf?)
      ((classes.map Prod.snd).map registry.registrationOf) := by
  induction h with
  | top => exact .top
  | @above id cls classes hget _ ih =>
    rw [Option.bind_some, nameOf?_of_get? hget]
    exact .above (List.mem_map_of_mem (mem_toList_of_get? hget)) ih

theorem Lineage.get?_of_mem (h : Lineage registry start classes) :
    ∀ entry ∈ classes, registry.get? entry.1 = some entry.2 := by
  induction h with
  | top => simp
  | above hget _ ih => exact List.forall_mem_cons.2 ⟨hget, ih⟩

theorem Lineage.head?_eq (h : Lineage registry start classes) :
    classes.head?.map Prod.snd = start.bind registry.get? := by
  cases h with
  | top => rfl
  | above hget _ => rw [Option.bind_some, hget]; rfl

/-! ## Lookups, told by the way up -/

theorem WellFormed.exists_superclassOf? (hwf : registry.WellFormed)
    (hget : registry.get? id = some cls) :
    ∃ superclass?, registry.superclassOf? id = .ok superclass? ∧
      superclass?.map (·.name) = (registry.registrationOf cls).superclass? := by
  rw [superclassOf?, hget, Option.bind_some, registrationOf]
  cases hsuper : cls.superclass? with
  | none => exact ⟨none, rfl, rfl⟩
  | some parent =>
    obtain ⟨above, habove⟩ := hwf.exists_superclass (mem_toList_of_get? hget) hsuper
    refine ⟨some above, ?_, ?_⟩
    · simp only [fetch, habove, Except.map_ok]
    · rw [Option.bind_some, nameOf?_of_get? habove]
      rfl

theorem WellFormed.map_superclassOf? (hwf : registry.WellFormed)
    (hget : registry.get? id = some cls) (h : Lineage registry cls.superclass? classes) :
    (·.map registry.registrationOf) <$> registry.superclassOf? id =
      .ok ((classes.map Prod.snd).map registry.registrationOf).head? := by
  rw [List.head?_map, List.head?_map, h.head?_eq, superclassOf?, hget, Option.bind_some]
  cases hsuper : cls.superclass? with
  | none => rfl
  | some parent =>
    obtain ⟨above, habove⟩ := hwf.exists_superclass (mem_toList_of_get? hget) hsuper
    simp only [fetch, habove, Option.bind_some, Except.map_ok]

theorem WellFormed.map_ancestors (hwf : registry.WellFormed) (hget : registry.get? id = some cls)
    (h : Lineage registry cls.superclass? classes) :
    (·.map registry.nameOf?) <$> registry.ancestors id =
      .ok (((classes.map Prod.snd).map registry.registrationOf).map (some ·.name)) := by
  rw [hwf.ancestors_eq_ok hget h, Except.map_ok]
  simp only [List.map_map]
  congr 1
  refine List.map_congr_left fun entry hentry => ?_
  rw [Function.comp_apply, nameOf?_of_get? (h.get?_of_mem entry hentry)]
  rfl

theorem WellFormed.map_findVariable (hwf : registry.WellFormed)
    (h : Lineage registry (some id) classes) (symbol : String) :
    (·.map registry.registrationOf) <$> registry.findVariable id symbol =
      .ok (((classes.map Prod.snd).map registry.registrationOf).find?
        (·.vars.contains symbol)) := by
  rw [findVariable, hwf.lineage_eq_ok h, Except.map_ok, Except.map_ok]
  generalize classes.map Prod.snd = lineage
  rw [List.find?_map]
  rfl

theorem WellFormed.map_findConstant (hwf : registry.WellFormed)
    (h : Lineage registry (some id) classes) (symbol : String) :
    (·.map fun found => (registry.registrationOf found.1, found.2)) <$>
        registry.findConstant id symbol =
      .ok (((classes.map Prod.snd).map registry.registrationOf).findSome? fun registration =>
        (registration.consts.get? symbol).map (registration, ·)) := by
  rw [findConstant, hwf.lineage_eq_ok h, Except.map_ok, Except.map_ok]
  generalize classes.map Prod.snd = lineage
  rw [List.findSome?_map, List.map_findSome?]
  congr 2
  funext cls
  rw [Function.comp_apply, Function.comp_apply, Option.map_map]
  rfl

/-! ## Links by name -/

theorem WellFormed.linksOf_eq (hwf : registry.WellFormed) (hcls : cls ∈ registry.toList) :
    registry.linksOf cls = (registry.registrationOf cls).refersTo.filterMap registry.idOf? := by
  rw [linksOf, Registration.refersTo, List.filterMap_append, List.filterMap_filterMap]
  congr 1
  rw [registrationOf]
  cases hsuper : cls.superclass? with
  | none => rfl
  | some parent =>
    obtain ⟨above, hget⟩ := hwf.exists_superclass hcls hsuper
    have hname := nameOf?_of_get? hget
    have hid := hwf.nameOf?_eq_some_iff.1 hname
    simp [hname, hid]

/-- A link leads from one class to another where the one refers to the other by name. -/
theorem WellFormed.links_iff_refers (hwf : registry.WellFormed) {m n : String}
    (ha : registry.idOf? m = some id) {other : ClassId} (hb : registry.idOf? n = some other) :
    registry.Links id other ↔ Registration.Refers registry.registrations m n := by
  obtain ⟨cls, hget, rfl⟩ := hwf.idOf?_eq_some_iff.1 ha
  have hcls := mem_toList_of_get? hget
  constructor
  · rintro ⟨found, hfound, hmem⟩
    cases hget.symm.trans hfound
    rw [hwf.linksOf_eq hcls] at hmem
    obtain ⟨name, hname, hid⟩ := List.mem_filterMap.1 hmem
    rw [← hwf.nameOf?_eq_some_iff] at hid hb
    cases hid.symm.trans hb
    refine ⟨_, List.mem_map_of_mem hcls, rfl, hname, ?_⟩
    obtain ⟨target, htarget, rfl⟩ := Option.map_eq_some_iff.1 hb
    exact hwf.names_eq_map_registrations ▸
      hwf.mem_names_iff.2 ⟨target, mem_toList_of_get? htarget, rfl⟩
  · rintro ⟨registration, hmem, hname, hrefers, -⟩
    obtain ⟨found, hfound, rfl⟩ := List.mem_map.1 hmem
    cases hwf.eq_of_name_eq hfound hcls hname
    exact ⟨cls, hget, hwf.linksOf_eq hcls ▸ List.mem_filterMap.2 ⟨n, hrefers, hb⟩⟩

theorem WellFormed.refers_of_links (hwf : registry.WellFormed) {other : ClassId}
    (h : registry.Links id other) :
    Registration.Refers registry.registrations ((registry.nameOf? id).getD "")
      ((registry.nameOf? other).getD "") := by
  have hnamed : ∀ {id}, registry.holds id = true →
      registry.idOf? ((registry.nameOf? id).getD "") = some id := by
    intro id hheld
    obtain ⟨cls, hget⟩ := holds_iff.1 hheld
    rw [nameOf?_of_get? hget]
    exact hwf.idOf?_eq_some_iff.2 ⟨cls, hget, rfl⟩
  -- both ends are held, so their names lead back to them
  obtain ⟨i, j, rfl, rfl, hj⟩ := hwf.exists_entry_of_links h
  have ⟨cls, hget, _⟩ := h
  exact (hwf.links_iff_refers (hnamed (holds_iff.2 ⟨cls, hget⟩))
    (hnamed (holds_entry_iff.2 hj))).1 h

theorem WellFormed.links_of_refers (hwf : registry.WellFormed) {m n : String}
    (h : Registration.Refers registry.registrations m n) :
    registry.Links ((registry.idOf? m).getD .null) ((registry.idOf? n).getD .null) := by
  have hheld : ∀ {name}, name ∈ registry.registrations.map (·.name) →
      registry.idOf? name = some ((registry.idOf? name).getD .null) := by
    intro name hname
    rw [← hwf.names_eq_map_registrations] at hname
    obtain ⟨id, hid⟩ := exists_idOf?_of_mem_names hname
    rw [hid, Option.getD_some]
  have ⟨registration, hmem, hname, _, htarget⟩ := h
  have hm := hname ▸ hheld (List.mem_map_of_mem hmem)
  exact (hwf.links_iff_refers hm (hheld htarget)).2 h

/-- A class leads back to itself exactly when its name refers back to itself, by way of others. -/
theorem WellFormed.leadsBack_iff_refers (hwf : registry.WellFormed)
    (hid : registry.idOf? name = some id) :
    registry.LeadsBack id ↔
      Relation.TransGen (Registration.Refers registry.registrations) name name := by
  -- a path is carried over step by step, by the names of the ids and by the ids of the names
  constructor
  · intro hpath
    have hname := hwf.nameOf?_eq_some_iff.2 hid
    have hlift := Relation.TransGen.lift (fun id => (registry.nameOf? id).getD "")
      (fun _ _ => hwf.refers_of_links) _ _ hpath
    simp only [Function.onFun, hname, Option.getD_some] at hlift
    exact hlift
  · intro hpath
    have hlift := Relation.TransGen.lift (fun name => (registry.idOf? name).getD .null)
      (fun _ _ => hwf.links_of_refers) _ _ hpath
    simp only [Function.onFun, hid, Option.getD_some] at hlift
    exact hlift

end Registry

end FuzzyHierarchy
