import FuzzyHierarchy.Registry.Basic
import FuzzyHierarchy.Proofs.Lists.Related
import Mathlib.Data.List.Nodup

/-
Laws of the registry: what registration adds, lookup by id and by name, and the invariant of every
registry that registrations lead to. The table keeps step with the slots, so a name leads to the
class that is called so; the names are distinct, so there is one such class; and a superclass is
always registered before the classes that extend it.

Main statements: a registration keeps the invariant and, when it is refused, the registry as it was;
and where the invariant holds, what is looked up by name and what is gone through in the order of
registration is what the slots have.
-/

namespace FuzzyHierarchy

theorem ClassId.entry_injective : Function.Injective ClassId.entry := fun _ _ => ClassId.entry.inj

/-- Where keys are distinct, each leads back to its own value. -/
theorem find?_key_eq_some {α κ : Type} [DecidableEq κ] {key : α → κ} {xs : List α}
    (hkeys : (xs.map key).Nodup) {x : α} (hx : x ∈ xs) : xs.find? (key · == key x) = some x := by
  rcases hfind : xs.find? (key · == key x) with _ | y
  · rw [List.find?_eq_none] at hfind
    simpa using hfind x hx
  · have hy := List.mem_of_find?_eq_some hfind
    have hsame : key y = key x := by simpa using List.find?_some hfind
    rw [List.inj_on_of_nodup_map hkeys hy hx hsame]

/-- The name of the superclass that a registration asks for, if it asks for one. -/
def Registration.parent? (registration : Registration) : Option String :=
  registration.superclass?.filter (· ≠ "")

namespace Registry

variable {registry next : Registry} {registration : Registration} {cls other : FuzzyClass}
  {classes : List FuzzyClass} {id : ClassId} {ids : List ClassId} {name : String} {i j : Nat}

/-- The classes with the ids of their slots. -/
def placed (registry : Registry) : List (ClassId × FuzzyClass) :=
  registry.toList.zipIdx.map fun (cls, index) => (.entry index, cls)

/-- The invariant of a registry. -/
structure WellFormed (registry : Registry) : Prop where
  /-- Each slot has a row in its place of the table, which leads from the name of the class to it.
  -/
  in_step : registry.table.toList = registry.placed.map fun (id, cls) => (cls.name, id)
  names_nodup : registry.names.Nodup
  superclass_earlier : ∀ i cls id, registry.get? (.entry i) = some cls →
    cls.superclass? = some id → ∃ j < i, id = .entry j

/-! ## Lookup by id -/

theorem get?_entry : registry.get? (.entry i) = registry.toList[i]? := by
  simp [get?, toList]

theorem get?_eq_some_iff :
    registry.get? id = some cls ↔ ∃ i, id = .entry i ∧ registry.toList[i]? = some cls := by
  cases id with
  | entry i => simp [get?_entry]
  | null => simp [get?]

theorem holds_iff : registry.holds id = true ↔ ∃ cls, registry.get? id = some cls :=
  Option.isSome_iff_exists

theorem holds_entry_iff : registry.holds (.entry i) = true ↔ i < registry.toList.length := by
  simp [holds, get?, toList]

theorem not_holds_null : ¬ registry.holds .null = true := by
  simp [holds, get?]

theorem mem_toList_of_get? (h : registry.get? id = some cls) : cls ∈ registry.toList := by
  obtain ⟨i, -, hget⟩ := get?_eq_some_iff.1 h
  exact List.mem_of_getElem? hget

theorem exists_get?_of_mem (h : cls ∈ registry.toList) : ∃ id, registry.get? id = some cls := by
  obtain ⟨i, hi⟩ := List.mem_iff_getElem?.1 h
  exact ⟨.entry i, get?_entry.trans hi⟩

theorem fetch_eq_ok_iff : registry.fetch id = .ok cls ↔ registry.get? id = some cls := by
  unfold fetch
  cases registry.get? id with
  | none => simp
  | some found => simp

theorem mapM_fetch_eq_ok_iff :
    ids.mapM registry.fetch = .ok classes ↔ ids.map registry.get? = classes.map some := by
  rw [mapM_eq_ok_iff, ← List.forall₂_eq_eq_eq, List.forall₂_map_left_iff,
    List.forall₂_map_right_iff]
  simp only [fetch_eq_ok_iff]

theorem exists_mapM_fetch (h : ∀ id ∈ ids, registry.holds id = true) :
    ∃ classes, ids.mapM registry.fetch = .ok classes := by
  obtain ⟨classes, hclasses⟩ := exists_forall₂_iff.2 fun id hid => holds_iff.1 (h id hid)
  exact ⟨classes, mapM_eq_ok_iff.2 (hclasses.imp fun _ _ => fetch_eq_ok_iff.2)⟩

/-! ## The classes with their ids -/

theorem mem_placed_iff : (id, cls) ∈ registry.placed ↔ registry.get? id = some cls := by
  rw [get?_eq_some_iff, placed, List.mem_map]
  constructor
  · rintro ⟨⟨_, i⟩, hmem, heq⟩
    cases heq
    exact ⟨i, rfl, List.mem_zipIdx_iff_getElem?.1 hmem⟩
  · rintro ⟨i, rfl, hi⟩
    exact ⟨(cls, i), List.mem_zipIdx_iff_getElem?.2 hi, rfl⟩

theorem map_fst_placed (registry : Registry) :
    registry.placed.map Prod.fst = (List.range registry.toList.length).map .entry := by
  have hplaces : registry.toList.zipIdx.map Prod.snd = List.range registry.toList.length := by
    rw [List.zipIdx_map_snd, ← List.range_eq_range']
  rw [placed, List.map_map, ← hplaces, List.map_map]
  rfl

theorem map_snd_placed (registry : Registry) : registry.placed.map Prod.snd = registry.toList := by
  rw [placed, List.map_map]
  exact List.zipIdx_map_fst 0 registry.toList

/-! ## Lookup by name -/

theorem exists_idOf?_of_mem_names (h : name ∈ registry.names) :
    ∃ id, registry.idOf? name = some id := by
  rw [← Option.isSome_iff_exists, Option.isSome_iff_ne_none, ne_eq, idOf?_eq_none_iff,
    Classical.not_not]
  exact h

theorem find?_eq_none_iff : registry.find? name = .ok none ↔ name ∉ registry.names := by
  rw [← idOf?_eq_none_iff, find?]
  cases registry.idOf? name with
  | none => simp
  | some id => cases hfetch : registry.fetch id <;> simp [hfetch]

namespace WellFormed

variable (hwf : registry.WellFormed)

include hwf

theorem names_eq : registry.names = registry.toList.map (·.name) := by
  rw [names, hwf.in_step, ← map_snd_placed, List.map_map, List.map_map]
  rfl

theorem ids_eq : registry.ids = (List.range registry.toList.length).map .entry := by
  rw [ids, hwf.in_step, ← map_fst_placed, List.map_map]
  rfl

/-- The ids that the table leads to are those that the slots hold. -/
theorem mem_ids_iff : id ∈ registry.ids ↔ registry.holds id = true := by
  rw [hwf.ids_eq]
  cases id with
  | entry i => simp [holds_entry_iff]
  | null => simp [not_holds_null]

theorem size_eq : registry.size = registry.toList.length := by
  rw [size, ← Array.length_toList, hwf.in_step, List.length_map, placed, List.length_map,
    List.length_zipIdx]

theorem mem_names_iff : name ∈ registry.names ↔ ∃ cls ∈ registry.toList, cls.name = name := by
  rw [hwf.names_eq, List.mem_map]

/-- The classes called alike are one class. -/
theorem eq_of_name_eq (hcls : cls ∈ registry.toList) (hother : other ∈ registry.toList)
    (heq : cls.name = other.name) : cls = other :=
  List.inj_on_of_nodup_map (hwf.names_eq ▸ hwf.names_nodup) hcls hother heq

/-- The classes called alike are one class, in one slot. -/
theorem index_inj (hcls : registry.toList[i]? = some cls)
    (hother : registry.toList[j]? = some other) (heq : cls.name = other.name) : i = j := by
  have hi : registry.names[i]? = some cls.name := by simp [hwf.names_eq, hcls]
  have hj : registry.names[j]? = some cls.name := by simp [hwf.names_eq, hother, heq]
  obtain ⟨hlt, -⟩ := List.getElem?_eq_some_iff.1 hi
  exact (List.getElem?_inj hlt hwf.names_nodup).1 (hi.trans hj.symm)

/-- A class holds one id. -/
theorem get?_inj {other : ClassId} (hget : registry.get? id = some cls)
    (hother : registry.get? other = some cls) : id = other := by
  obtain ⟨i, rfl, hi⟩ := get?_eq_some_iff.1 hget
  obtain ⟨j, rfl, hj⟩ := get?_eq_some_iff.1 hother
  rw [hwf.index_inj hi hj rfl]

theorem mem_table_iff :
    (name, id) ∈ registry.table.toList ↔ ∃ cls, registry.get? id = some cls ∧ cls.name = name := by
  rw [hwf.in_step, List.mem_map]
  constructor
  · rintro ⟨⟨_, cls⟩, hmem, heq⟩
    cases heq
    exact ⟨cls, mem_placed_iff.1 hmem, rfl⟩
  · rintro ⟨cls, hget, rfl⟩
    exact ⟨(id, cls), mem_placed_iff.2 hget, rfl⟩

/-- The id of a name is the one that the class of this name holds. -/
theorem idOf?_eq_some_iff :
    registry.idOf? name = some id ↔ ∃ cls, registry.get? id = some cls ∧ cls.name = name := by
  rw [← hwf.mem_table_iff, idOf?, ← Array.find?_toList, Option.map_eq_some_iff]
  constructor
  · rintro ⟨⟨found, _⟩, hfind, rfl⟩
    have hname : found = name := by simpa using List.find?_some hfind
    exact hname ▸ List.mem_of_find?_eq_some hfind
  · exact fun hmem => ⟨(name, id), find?_key_eq_some hwf.names_nodup hmem, rfl⟩

theorem find?_eq_some_iff :
    registry.find? name = .ok (some cls) ↔ cls ∈ registry.toList ∧ cls.name = name := by
  rw [find?]
  constructor
  · intro h
    cases hid : registry.idOf? name with
    | none => simp [hid] at h
    | some id =>
      obtain ⟨found, hget, hname⟩ := hwf.idOf?_eq_some_iff.1 hid
      simp only [hid, fetch_eq_ok_iff.2 hget, Except.map_ok, Except.ok.injEq,
        Option.some.injEq] at h
      exact h ▸ ⟨mem_toList_of_get? hget, hname⟩
  · rintro ⟨hcls, rfl⟩
    obtain ⟨id, hget⟩ := exists_get?_of_mem hcls
    simp only [hwf.idOf?_eq_some_iff.2 ⟨cls, hget, rfl⟩, fetch_eq_ok_iff.2 hget, Except.map_ok]

/-- Looking for a class by its name meets no fault. -/
theorem exists_find? (name : String) : ∃ cls?, registry.find? name = .ok cls? := by
  by_cases hname : name ∈ registry.names
  · obtain ⟨cls, hcls, rfl⟩ := hwf.mem_names_iff.1 hname
    exact ⟨some cls, hwf.find?_eq_some_iff.2 ⟨hcls, rfl⟩⟩
  · exact ⟨none, find?_eq_none_iff.2 hname⟩

/-- Going through the classes meets no fault: the ids of the table are held by the slots. -/
theorem entries_eq : registry.entries = .ok registry.placed := by
  rw [entries, hwf.ids_eq, ← map_fst_placed, mapM_eq_ok_iff, List.forall₂_map_left_iff,
    List.forall₂_same]
  intro entry hentry
  simp only [fetch_eq_ok_iff.2 (mem_placed_iff.1 hentry), Except.map_ok]

theorem visible_eq : registry.visible = .ok (registry.toList.filter fun cls => !cls.hidden) := by
  rw [visible, bind_of_eq_ok hwf.entries_eq, map_snd_placed]
  rfl

end WellFormed

/-- The names alone decide which id a name leads to. -/
theorem WellFormed.idOf?_eq_of_names_eq {a b : Registry} (ha : a.WellFormed) (hb : b.WellFormed)
    (h : a.names = b.names) : a.idOf? = b.idOf? := by
  have hlength : a.toList.length = b.toList.length := by
    simpa [ha.names_eq, hb.names_eq] using congrArg List.length h
  have hrows : ∀ registry : Registry, registry.table.toList = registry.names.zip registry.ids :=
    fun _ => List.zip_of_prod rfl rfl
  have htable : a.table = b.table := by
    rw [← Array.toList_inj, hrows, hrows, h, ha.ids_eq, hb.ids_eq, hlength]
  funext name
  rw [idOf?, idOf?, htable]

/-! ## Registration -/

theorem superclassId?_eq_ok_iff {superclass? : Option ClassId} :
    registry.superclassId? registration = .ok superclass? ↔
      (∀ parent ∈ registration.parent?, parent ∈ registry.names) ∧
        superclass? = registration.parent?.bind registry.idOf? := by
  rw [superclassId?, ← Registration.parent?]
  cases registration.parent? with
  | none => simp [eq_comm]
  | some parent =>
    cases hid : registry.idOf? parent with
    | none => simp [hid, idOf?_eq_none_iff.1 hid]
    | some id =>
      have hmem : parent ∈ registry.names := by
        by_contra hfree
        simp [idOf?_eq_none_iff.2 hfree] at hid
      simp [hid, hmem, eq_comm]

theorem superclassId?_eq_error_iff {e : DeclarationError} :
    registry.superclassId? registration = .error e ↔
      ∃ parent, registration.parent? = some parent ∧ parent ∉ registry.names ∧
        e = .undeclaredSuperclass registration.name parent := by
  rw [superclassId?, ← Registration.parent?]
  cases registration.parent? with
  | none => simp
  | some parent =>
    cases hid : registry.idOf? parent with
    | none => simp [hid, idOf?_eq_none_iff.1 hid, eq_comm]
    | some id =>
      have hmem : parent ∈ registry.names := by
        by_contra hfree
        simp [idOf?_eq_none_iff.2 hfree] at hid
      simp [hid, hmem]

/-- The class that a registration makes in a registry. -/
def classOf (registry : Registry) (registration : Registration) : FuzzyClass :=
  { registration with superclass? := registration.parent?.bind registry.idOf? }

/-- What a registration needs, and what it adds. -/
theorem register_eq_ok_iff :
    (register registration).effect registry = (.ok id, next) ↔
      (∀ parent ∈ registration.parent?, parent ∈ registry.names) ∧
        registration.name ∉ registry.names ∧ id = .entry registry.toList.length ∧
          next = registry.push (registry.classOf registration) := by
  rw [effect_register]
  cases hsuper : registry.superclassId? registration with
  | error refusal =>
    obtain ⟨parent, hparent, hunknown, -⟩ := superclassId?_eq_error_iff.1 hsuper
    exact iff_of_false (by simp) fun h => hunknown (h.1 parent hparent)
  | ok superclass? =>
    obtain ⟨hknown, rfl⟩ := superclassId?_eq_ok_iff.1 hsuper
    rw [and_iff_right hknown]
    dsimp only
    rw [effect_add]
    split
    · rename_i htaken
      exact iff_of_false (by simp) fun h => h.1 (contains_eq_true_iff.1 htaken)
    · rename_i hfree
      rw [contains_eq_true_iff] at hfree
      simp [hfree, toList, classOf, eq_comm]

/-- Why a registration is refused: an unknown superclass counts before a name that is taken. The
registry is left as it was. -/
theorem register_eq_error_iff {e : DeclarationError} :
    (register registration).effect registry = (.error e, next) ↔
      ((∃ parent, registration.parent? = some parent ∧ parent ∉ registry.names ∧
        e = .undeclaredSuperclass registration.name parent) ∨
      (∀ parent ∈ registration.parent?, parent ∈ registry.names) ∧
        registration.name ∈ registry.names ∧ e = .duplicateClass registration.name) ∧
      next = registry := by
  rw [← superclassId?_eq_error_iff, effect_register]
  cases hsuper : registry.superclassId? registration with
  | error refusal =>
    obtain ⟨parent, hparent, hunknown, -⟩ := superclassId?_eq_error_iff.1 hsuper
    have hnot : ¬ ∀ parent ∈ registration.parent?, parent ∈ registry.names := fun hall =>
      hunknown (hall parent hparent)
    simp only [hnot, false_and, or_false, Prod.mk.injEq, Except.error.injEq, eq_comm]
  | ok superclass? =>
    have hall := (superclassId?_eq_ok_iff.1 hsuper).1
    simp only [reduceCtorEq, false_or, and_iff_right hall]
    rw [effect_add]
    split
    · rename_i htaken
      rw [contains_eq_true_iff] at htaken
      simp [htaken, eq_comm]
    · rename_i hfree
      rw [contains_eq_true_iff] at hfree
      simp [hfree]

theorem placed_push (registry : Registry) (cls : FuzzyClass) :
    (registry.push cls).placed =
      registry.placed ++ [(.entry registry.toList.length, cls)] := by
  simp [placed, List.zipIdx_append]

namespace WellFormed

theorem empty : WellFormed ∅ where
  in_step := rfl
  names_nodup := .nil
  superclass_earlier i cls id hget := by cases hget

/-- A class with a new name whose superclass is there can be added. -/
theorem push (h : registry.WellFormed) (hfree : cls.name ∉ registry.names)
    (hsuper : ∀ id, cls.superclass? = some id → registry.holds id = true) :
    (registry.push cls).WellFormed where
  in_step := by
    rw [placed_push, List.map_append, ← h.in_step]
    simp [Registry.push, toList]
  names_nodup := by
    rw [names_push, List.nodup_append]
    refine ⟨h.names_nodup, List.nodup_singleton _, fun name hname other hother heq => ?_⟩
    rw [List.mem_singleton.1 hother] at heq
    exact hfree (heq ▸ hname)
  superclass_earlier i found id hget hfound := by
    rw [get?_entry, toList_push, List.getElem?_append] at hget
    split at hget
    · exact h.superclass_earlier i found id (get?_entry.trans hget) hfound
    · rename_i hge
      -- the class is the new one
      obtain rfl : found = cls := by grind
      obtain ⟨parent, hparent⟩ := holds_iff.1 (hsuper id hfound)
      obtain ⟨j, rfl, hj⟩ := get?_eq_some_iff.1 hparent
      obtain ⟨hlt, -⟩ := List.getElem?_eq_some_iff.1 hj
      exact ⟨j, Nat.lt_of_lt_of_le hlt (Nat.not_lt.1 hge), rfl⟩

/-- Registering keeps the invariant, whether the registration is accepted or refused. -/
theorem register (h : registry.WellFormed) {answer : Except DeclarationError ClassId}
    (hregister : (register registration).effect registry = (answer, next)) : next.WellFormed := by
  cases answer with
  | error e => exact (register_eq_error_iff.1 hregister).2 ▸ h
  | ok id =>
    obtain ⟨-, hfree, -, rfl⟩ := register_eq_ok_iff.1 hregister
    refine h.push hfree fun id hsuper => ?_
    obtain ⟨parent, -, hid⟩ := Option.bind_eq_some_iff.1 hsuper
    obtain ⟨found, hfound, -⟩ := h.idOf?_eq_some_iff.1 hid
    exact holds_iff.2 ⟨found, hfound⟩

end WellFormed

end Registry

end FuzzyHierarchy
