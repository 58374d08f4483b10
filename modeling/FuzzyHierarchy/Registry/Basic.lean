import FuzzyHierarchy.Fault
import FuzzyHierarchy.FuzzyClass
import FuzzyHierarchy.InPlace

/-
The registry of classes. It keeps the classes in slots, where they are found by their ids, and
beside them a table of the names, where the ids are found. The table has the names in the order of
registration, and whatever goes through the classes goes through the table and fetches each class by
its id; that the slots and the table fit together is for registration to see to.

A class is registered under a name of its own, and its superclass, if it has one, has to be there
before it: registration refuses an unknown superclass first and a taken name second.
-/

namespace FuzzyHierarchy

/-- The registered classes. -/
structure Registry where
  /-- The slots with the classes. The id of a class tells its slot. -/
  slots : Array FuzzyClass := #[]
  /-- The names with the ids that they lead to, in the order of registration. -/
  table : Array (String × ClassId) := #[]

namespace Registry

instance : EmptyCollection Registry := ⟨{}⟩
instance : Inhabited Registry := ⟨∅⟩

/-- The number of names. -/
def size (registry : Registry) : Nat := registry.table.size

def isEmpty (registry : Registry) : Bool := registry.table.isEmpty

/-- The names in the order of registration. -/
def names (registry : Registry) : List String := registry.table.toList.map Prod.fst

/-- The ids that the names lead to, in the order of registration. -/
def ids (registry : Registry) : List ClassId := registry.table.toList.map Prod.snd

/-- The classes in the order of their slots. -/
def toList (registry : Registry) : List FuzzyClass := registry.slots.toList

/-! ## Lookup -/

/-- The class that holds an id, if one does. -/
def get? (registry : Registry) : ClassId → Option FuzzyClass
  | .entry index => registry.slots[index]?
  | .null => none

/-- Whether some class holds the id. -/
def holds (registry : Registry) (id : ClassId) : Bool := (registry.get? id).isSome

/-- The class that holds an id which the caller knows to be held. -/
def fetch (registry : Registry) (id : ClassId) : Except Fault FuzzyClass :=
  match registry.get? id with
  | some cls => .ok cls
  | none => .error (.notHeld id)

/-- The id of the class called `name`. -/
def idOf? (registry : Registry) (name : String) : Option ClassId :=
  (registry.table.find? (·.1 == name)).map Prod.snd

/-- Whether a class is called `name`. -/
def contains (registry : Registry) (name : String) : Bool := (registry.idOf? name).isSome

/-- The class called `name`. -/
def find? (registry : Registry) (name : String) : Except Fault (Option FuzzyClass) :=
  match registry.idOf? name with
  | none => .ok none
  | some id => some <$> registry.fetch id

/-- The classes with their ids, in the order of registration. -/
def entries (registry : Registry) : Except Fault (List (ClassId × FuzzyClass)) :=
  registry.ids.mapM fun id => (id, ·) <$> registry.fetch id

/-- The classes that are not hidden, in the order of registration. -/
def visible (registry : Registry) : Except Fault (List FuzzyClass) := do
  let entries ← registry.entries
  return (entries.map Prod.snd).filter fun cls => !cls.hidden

/-! ## Registration -/

/-- The id of the superclass that a registration names. -/
def superclassId? (registry : Registry) (registration : Registration) :
    Except DeclarationError (Option ClassId) :=
  match registration.superclass?.filter (· ≠ "") with
  | none => .ok none
  | some superclass =>
    match registry.idOf? superclass with
    | some id => .ok (some id)
    | none => .error (.undeclaredSuperclass registration.name superclass)

/-- Puts a class into a new slot. -/
def occupy (cls : FuzzyClass) : InPlace DeclarationError Registry ClassId :=
  modifyGet fun registry =>
    (.entry registry.slots.size, { registry with slots := registry.slots.push cls })

/-- Puts a new name with its id at the end of the table. -/
def enter (name : String) (id : ClassId) : InPlace DeclarationError Registry Unit :=
  modify fun registry => { registry with table := registry.table.push (name, id) }

/-- Adds a class under its own name, unless the name is taken. -/
def add (cls : FuzzyClass) : InPlace DeclarationError Registry ClassId := do
  if (← get).contains cls.name then
    throw (.duplicateClass cls.name)
  let id ← occupy cls
  enter cls.name id
  return id

/-- Registers a class. The superclass is looked up before the name is checked, so a class cannot
extend itself. -/
def register (registration : Registration) : InPlace DeclarationError Registry ClassId := do
  let superclass? ← (← get).superclassId? registration
  add { registration with superclass? }

/-! ## Names -/

@[ext] theorem ext {a b : Registry} (hslots : a.toList = b.toList)
    (htable : a.table.toList = b.table.toList) : a = b := by
  cases a; cases b; cases Array.toList_inj.mp hslots; cases Array.toList_inj.mp htable; rfl

theorem idOf?_eq_none_iff {registry : Registry} {name : String} :
    registry.idOf? name = none ↔ name ∉ registry.names := by
  rw [idOf?, names, Option.map_eq_none_iff, Array.find?_eq_none, List.mem_map]
  simp only [beq_iff_eq, Array.mem_toList_iff, not_exists, not_and]

@[simp] theorem contains_eq_true_iff {registry : Registry} {name : String} :
    registry.contains name = true ↔ name ∈ registry.names := by
  rw [contains, Option.isSome_iff_ne_none, ne_eq, idOf?_eq_none_iff, Classical.not_not]

/-! ## What a registration leaves -/

/-- The registry with one class more, in a new slot and with a new row. -/
def push (registry : Registry) (cls : FuzzyClass) : Registry where
  slots := registry.slots.push cls
  table := registry.table.push (cls.name, .entry registry.slots.size)

@[simp] theorem toList_push (registry : Registry) (cls : FuzzyClass) :
    (registry.push cls).toList = registry.toList ++ [cls] := by
  simp [push, toList]

@[simp] theorem names_push (registry : Registry) (cls : FuzzyClass) :
    (registry.push cls).names = registry.names ++ [cls.name] := by
  simp [push, names]

/-- A class is added unless its name is taken; if it is, the registry is left as it was. -/
theorem effect_add (registry : Registry) (cls : FuzzyClass) :
    (add cls).effect registry =
      if registry.contains cls.name then (.error (.duplicateClass cls.name), registry)
      else (.ok (.entry registry.slots.size), registry.push cls) := by
  change InPlace.effect (do
    if registry.contains cls.name then
      throw (.duplicateClass cls.name)
    let id ← occupy cls
    enter cls.name id
    return id) registry = _
  split <;> rfl

/-- An unknown superclass is refused before the class is added, and nothing is changed then. -/
theorem effect_register (registry : Registry) (registration : Registration) :
    (register registration).effect registry =
      match registry.superclassId? registration with
      | .ok superclass? => (add { registration with superclass? }).effect registry
      | .error e => (.error e, registry) := by
  change InPlace.effect (do
    let superclass? ← registry.superclassId? registration
    add { registration with superclass? } : InPlace DeclarationError Registry ClassId) registry = _
  cases registry.superclassId? registration <;> rfl

end Registry

end FuzzyHierarchy
