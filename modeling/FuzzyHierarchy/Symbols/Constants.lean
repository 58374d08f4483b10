import FuzzyHierarchy.DeclarationError
import FuzzyHierarchy.InPlace

/-
The constants that a class declares itself: distinct names, each with the text of its value, in the
order of their declaration. Constants have a namespace of their own, apart from the variables.
Declaring a name again is refused, so the first value stays. Two maps are equal (`==`) when they
give the same value to the same names, whatever the order of declaration.
-/

namespace FuzzyHierarchy

/-- The constants of one class, in declaration order. -/
structure Constants where
  entries : List (String × String) := []
  nodup : (entries.map Prod.fst).Nodup := by simp

namespace Constants

instance : EmptyCollection Constants := ⟨{}⟩
instance : Inhabited Constants := ⟨∅⟩

/-- The names with their values, in declaration order. -/
def toList (consts : Constants) : List (String × String) := consts.entries

/-- The names in declaration order. -/
def names (consts : Constants) : List String := consts.entries.map Prod.fst

def size (consts : Constants) : Nat := consts.entries.length

def isEmpty (consts : Constants) : Bool := consts.entries.isEmpty

/-- The value of `name`, if the class declares it itself. -/
def get? (consts : Constants) (name : String) : Option String := consts.entries.lookup name

/-- Whether the class declares `name` itself. -/
def contains (consts : Constants) (name : String) : Bool := decide (name ∈ consts.names)

/-- Adds `name` with its value to the scope of the class `owner`. -/
def declare (consts : Constants) (owner name value : String) : Except DeclarationError Constants :=
  if h : name ∈ consts.names then
    .error (.duplicateSymbol owner name .constantName)
  else
    .ok ⟨consts.entries ++ [(name, value)], by
      rw [List.map_append]
      exact List.nodup_append.mpr ⟨consts.nodup, by simp, by grind [names]⟩⟩

/-- Declares the pairs of a list one after another. -/
def declareAll (consts : Constants) (owner : String) (entries : List (String × String)) :
    Except DeclarationError Constants :=
  entries.foldlM (fun declared entry => declared.declare owner entry.1 entry.2) consts

/-- Gives a value to `name`. A name that is there already keeps its place and loses its value. -/
def insert (consts : Constants) (name value : String) : Constants :=
  if h : name ∈ consts.names then
    ⟨consts.entries.map fun entry => if entry.1 = name then (name, value) else entry, by
      have hkeys : (Prod.fst ∘ fun entry : String × String =>
          if entry.1 = name then (name, value) else entry) = Prod.fst := by
        funext entry
        grind
      rw [List.map_map, hkeys]
      exact consts.nodup⟩
  else
    ⟨consts.entries ++ [(name, value)], by
      rw [List.map_append]
      exact List.nodup_append.mpr ⟨consts.nodup, by simp, by grind [names]⟩⟩

/-- Adds `name` with its value to the map in its place. A name only gets a value if it has none
yet. -/
def declareInPlace (owner name value : String) : InPlace DeclarationError Constants Unit := do
  if (← get).contains name then
    throw (.duplicateSymbol owner name .constantName)
  modify (·.insert name value)

/-- Maps of one size are equal when the second gives every name of the first the same value. -/
instance : BEq Constants where
  beq a b := a.size == b.size && a.entries.all fun entry => b.get? entry.1 == some entry.2

/-! ## Declaring -/

@[ext] theorem ext {a b : Constants} (h : a.toList = b.toList) : a = b := by
  cases a; cases b; cases h; rfl

/-- A new name is added at the end, with its value. -/
theorem declare_eq_ok_iff {consts next : Constants} {owner name value : String} :
    consts.declare owner name value = .ok next ↔
      name ∉ consts.names ∧ next.toList = consts.toList ++ [(name, value)] := by
  unfold declare
  split
  · rename_i hmem
    simp [hmem]
  · rename_i hmem
    rw [Except.ok.injEq, Constants.ext_iff, eq_comm]
    exact (and_iff_right hmem).symm

/-- A name that is there already is refused. -/
theorem declare_eq_error_iff {consts : Constants} {owner name value : String}
    {e : DeclarationError} :
    consts.declare owner name value = .error e ↔
      name ∈ consts.names ∧ e = .duplicateSymbol owner name .constantName := by
  unfold declare
  split
  · rename_i hmem
    rw [Except.error.injEq, eq_comm]
    exact (and_iff_right hmem).symm
  · rename_i hmem
    exact iff_of_false (by simp) fun h => hmem h.1

@[simp] theorem contains_eq_true_iff {consts : Constants} {name : String} :
    consts.contains name = true ↔ name ∈ consts.names := decide_eq_true_iff

theorem toList_insert_of_notMem {consts : Constants} {name value : String}
    (h : name ∉ consts.names) :
    (consts.insert name value).toList = consts.toList ++ [(name, value)] := by
  rw [insert, dif_neg h]
  rfl

/-- A new name gets its value, and a name that is there already is refused. -/
theorem declare_eq_ite (consts : Constants) (owner name value : String) :
    consts.declare owner name value =
      if consts.contains name then .error (.duplicateSymbol owner name .constantName)
      else .ok (consts.insert name value) := by
  by_cases h : name ∈ consts.names
  · rw [if_pos (contains_eq_true_iff.2 h), declare_eq_error_iff]
    exact ⟨h, rfl⟩
  · rw [if_neg (mt contains_eq_true_iff.1 h), declare_eq_ok_iff]
    exact ⟨h, toList_insert_of_notMem h⟩

/-- Declaring in place is declaring, and a refusal changes nothing. -/
theorem effect_declareInPlace (consts : Constants) (owner name value : String) :
    (declareInPlace owner name value).effect consts =
      InPlace.outcome consts (consts.declare owner name value) := by
  change InPlace.effect (if consts.contains name then
      throw (DeclarationError.duplicateSymbol owner name .constantName)
    else
      modify (·.insert name value)) consts = _
  rw [declare_eq_ite]
  split <;> rfl

/-! ## Looking up -/

/-- The names are distinct, so a value that is given to a name is the one that is found. -/
theorem get?_eq_some_iff {consts : Constants} {name value : String} :
    consts.get? name = some value ↔ (name, value) ∈ consts.toList := by
  unfold get? toList
  rw [List.lookup_eq_some_iff]
  constructor
  · rintro ⟨earlier, later, hsplit, -⟩
    simp [hsplit]
  · intro hmem
    obtain ⟨earlier, later, hsplit⟩ := List.append_of_mem hmem
    refine ⟨earlier, later, hsplit, fun entry hentry => ?_⟩
    have hnodup := consts.nodup
    rw [hsplit, List.map_append, List.map_cons, List.nodup_append] at hnodup
    have hne := hnodup.2.2 entry.1 (List.mem_map_of_mem hentry) name (by simp)
    simpa using Ne.symm hne

theorem get?_eq_none_iff {consts : Constants} {name : String} :
    consts.get? name = none ↔ name ∉ consts.names := by
  unfold get? names
  rw [List.lookup_eq_none_iff, List.mem_map]
  constructor
  · rintro h ⟨entry, hentry, rfl⟩
    simpa using h entry hentry
  · intro h entry hentry
    simpa using fun hname => h ⟨entry, hentry, hname.symm⟩

end Constants

end FuzzyHierarchy
