import FuzzyHierarchy.Proofs.Registry.Registrations

/-
What is met on the way up from a class. The places of the classes fall on the way, so no class is
met twice, and the way ends at a class that has no superclass.

Main statements: the ancestors of a class are its superclass followed by the ancestors of that one,
and a symbol is found in the first class of the way that declares it.
-/

namespace FuzzyHierarchy

/-- The first of the classes that has the property. -/
def FuzzyClass.Nearest (has : FuzzyClass → Prop) (classes : List FuzzyClass) (scope : FuzzyClass) :
    Prop :=
  ∃ nearer farther, classes = nearer ++ scope :: farther ∧ has scope ∧ ∀ cls ∈ nearer, ¬ has cls

namespace Registry

/-- What the ids above a class are like: they come in the reverse order of registration and go on
from the superclass of each to the next, up to a class that has none. -/
structure Ascent (registry : Registry) (id : ClassId) (cls : FuzzyClass) (above : List ClassId) :
    Prop where
  nodup : above.Nodup
  falling : ∃ places : List Nat, id :: above = places.map .entry ∧ places.Pairwise (· > ·)
  of_none : cls.superclass? = none → above = []
  of_some : ∀ parent, cls.superclass? = some parent →
    ∃ farther, registry.ancestors parent = .ok farther ∧ above = parent :: farther
  top : ∃ last root, (id :: above).getLast? = some last ∧ registry.get? last = some root ∧
    root.superclass? = none

variable {registry : Registry} {cls scope : FuzzyClass} {id : ClassId} {start : Option ClassId}
  {classes : List (ClassId × FuzzyClass)} {lineage : List FuzzyClass} {name value : String}

/-! ## The way up -/

theorem Lineage.head?_fst (h : Lineage registry start classes) :
    (classes.map Prod.fst).head? = start := by
  cases h with
  | top => rfl
  | above _ _ => rfl

theorem Lineage.map_get? (h : Lineage registry start classes) :
    (classes.map Prod.fst).map registry.get? = (classes.map Prod.snd).map some := by
  rw [List.map_map, List.map_map]
  exact List.map_congr_left fun entry hentry => h.get?_of_mem entry hentry

theorem Lineage.exists_places (h : Lineage registry start classes) (hwf : registry.WellFormed) :
    ∃ places : List Nat, classes.map Prod.fst = places.map .entry ∧ places.Pairwise (· > ·) := by
  simp only [← List.isChain_iff_pairwise]
  induction h with
  | top => exact ⟨[], rfl, .nil⟩
  | @above id cls classes hget habove ih =>
    obtain ⟨i, rfl, -⟩ := get?_eq_some_iff.1 hget
    obtain ⟨places, hplaces, hchain⟩ := ih
    refine ⟨i :: places, by rw [List.map_cons, hplaces, List.map_cons], ?_⟩
    rw [List.isChain_cons]
    refine ⟨fun place hplace => ?_, hchain⟩
    -- the next place is that of the superclass
    have hsuper : cls.superclass? = some (.entry place) := by
      rw [← habove.head?_fst, hplaces, List.head?_map, Option.mem_def.1 hplace, Option.map_some]
    obtain ⟨j, hj, heq⟩ := hwf.superclass_earlier i cls _ hget hsuper
    cases heq
    exact hj

/-- No class is met twice. -/
theorem Lineage.nodup_ids (h : Lineage registry start classes) (hwf : registry.WellFormed) :
    (classes.map Prod.fst).Nodup := by
  obtain ⟨places, hplaces, hfalling⟩ := h.exists_places hwf
  rw [hplaces]
  refine List.Nodup.map (fun _ _ => ClassId.entry.inj) (hfalling.imp fun hlt => ?_)
  omega

theorem Lineage.superclass?_getLast (h : Lineage registry start classes) :
    ∀ entry ∈ classes.getLast?, entry.2.superclass? = none := by
  induction h with
  | top => simp
  | @above id cls classes hget habove ih =>
    cases classes with
    | nil =>
      have hsuper := habove.head?_fst
      simpa using hsuper.symm
    | cons next classes => simpa [List.getLast?_cons_cons] using ih

theorem WellFormed.ascent (hwf : registry.WellFormed) (hget : registry.get? id = some cls)
    (h : Lineage registry cls.superclass? classes) :
    registry.Ascent id cls (classes.map Prod.fst) := by
  have hall : Lineage registry (some id) ((id, cls) :: classes) := .above hget h
  constructor
  · exact (List.nodup_cons.1 (hall.nodup_ids hwf)).2
  · exact hall.exists_places hwf
  · intro hnone
    rw [hnone] at h
    cases h
    rfl
  · intro parent hsome
    rw [hsome] at h
    cases h with
    | above hparent habove => exact ⟨_, hwf.ancestors_eq_ok hparent habove, rfl⟩
  · obtain ⟨entry, hentry⟩ : ∃ entry, ((id, cls) :: classes).getLast? = some entry :=
      ⟨_, List.getLast?_eq_some_getLast (List.cons_ne_nil _ _)⟩
    refine ⟨entry.1, entry.2, ?_, hall.get?_of_mem entry (List.mem_of_getLast? hentry),
      hall.superclass?_getLast entry hentry⟩
    have hlast := congrArg (Option.map Prod.fst) hentry
    rwa [← List.getLast?_map] at hlast

/-! ## Symbols on the way up -/

theorem find?_declares_eq_some_iff :
    lineage.find? (·.declares name) = some scope ↔
      FuzzyClass.Nearest (name ∈ ·.vars) lineage scope := by
  rw [List.find?_eq_some_iff_append]
  simp only [FuzzyClass.Nearest, FuzzyClass.declares, Variables.contains_eq_true_iff,
    Bool.not_eq_true', ← Bool.not_eq_true]
  constructor
  · rintro ⟨hscope, nearer, farther, hsplit, hnearer⟩
    exact ⟨nearer, farther, hsplit, hscope, hnearer⟩
  · rintro ⟨nearer, farther, hsplit, hscope, hnearer⟩
    exact ⟨hscope, nearer, farther, hsplit, hnearer⟩

theorem find?_declares_eq_none_iff :
    lineage.find? (·.declares name) = none ↔ ∀ cls ∈ lineage, name ∉ cls.vars := by
  simp [FuzzyClass.declares]

theorem findSome?_consts_eq_some_iff :
    lineage.findSome? (fun cls => (cls.consts.get? name).map (cls, ·)) = some (scope, value) ↔
      FuzzyClass.Nearest (name ∈ ·.consts.names) lineage scope ∧
        (name, value) ∈ scope.consts.toList := by
  rw [List.findSome?_eq_some_iff]
  simp only [FuzzyClass.Nearest, Option.map_eq_none_iff, Constants.get?_eq_none_iff]
  constructor
  · rintro ⟨nearer, cls, farther, hsplit, hfound, hnearer⟩
    obtain ⟨_, hvalue, ⟨⟩⟩ := Option.map_eq_some_iff.1 hfound
    rw [Constants.get?_eq_some_iff] at hvalue
    exact ⟨⟨nearer, farther, hsplit, List.mem_map.2 ⟨_, hvalue, rfl⟩, hnearer⟩, hvalue⟩
  · rintro ⟨⟨nearer, farther, hsplit, -, hnearer⟩, hvalue⟩
    refine ⟨nearer, scope, farther, hsplit, ?_, hnearer⟩
    rw [Constants.get?_eq_some_iff.2 hvalue, Option.map_some]

theorem findSome?_consts_eq_none_iff :
    lineage.findSome? (fun cls => (cls.consts.get? name).map (cls, ·)) = none ↔
      ∀ cls ∈ lineage, name ∉ cls.consts.names := by
  simp [List.findSome?_eq_none_iff, Constants.get?_eq_none_iff]

theorem WellFormed.findVariable_eq_ok (hwf : registry.WellFormed)
    (h : Lineage registry (some id) classes) (name : String) :
    registry.findVariable id name =
      .ok ((classes.map Prod.snd).find? (·.declares name)) := by
  rw [findVariable, hwf.lineage_eq_ok h, Except.map_ok]

theorem WellFormed.findConstant_eq_ok (hwf : registry.WellFormed)
    (h : Lineage registry (some id) classes) (name : String) :
    registry.findConstant id name = .ok ((classes.map Prod.snd).findSome?
      fun cls => (cls.consts.get? name).map (cls, ·)) := by
  rw [findConstant, hwf.lineage_eq_ok h, Except.map_ok]

end Registry

end FuzzyHierarchy
