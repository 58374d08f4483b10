import FuzzyHierarchy.DeclarationError
import FuzzyHierarchy.InPlace

/-
The variables that a class declares itself: distinct names in the order of their declaration.
Declaring a name again is refused and changes nothing. Two sets are equal (`==`) when they hold
the same names, whatever the order of declaration.
-/

namespace FuzzyHierarchy

/-- The variables of one class, in declaration order. -/
structure Variables where
  names : List String := []
  nodup : names.Nodup := by simp

namespace Variables

instance : EmptyCollection Variables := ⟨{}⟩
instance : Inhabited Variables := ⟨∅⟩

instance : Membership String Variables := ⟨fun vars name => name ∈ vars.names⟩

instance (name : String) (vars : Variables) : Decidable (name ∈ vars) :=
  inferInstanceAs (Decidable (name ∈ vars.names))

/-- The names in declaration order. -/
def toList (vars : Variables) : List String := vars.names

def size (vars : Variables) : Nat := vars.names.length

def isEmpty (vars : Variables) : Bool := vars.names.isEmpty

/-- Whether the class declares `name` itself. -/
def contains (vars : Variables) (name : String) : Bool := decide (name ∈ vars)

/-- Adds `name` to the scope of the class `owner`. -/
def declare (vars : Variables) (owner name : String) : Except DeclarationError Variables :=
  if h : name ∈ vars.names then
    .error (.duplicateSymbol owner name .variableName)
  else
    .ok ⟨vars.names ++ [name], List.nodup_append.mpr ⟨vars.nodup, by simp, by grind⟩⟩

/-- Declares the names of a list one after another. -/
def declareAll (vars : Variables) (owner : String) (names : List String) :
    Except DeclarationError Variables :=
  names.foldlM (fun declared name => declared.declare owner name) vars

/-- Puts a name into the set. One that is there already keeps its place. -/
def insert (vars : Variables) (name : String) : Variables :=
  if h : name ∈ vars.names then
    vars
  else
    ⟨vars.names ++ [name], List.nodup_append.mpr ⟨vars.nodup, by simp, by grind⟩⟩

/-- Adds `name` to the set in its place. A name is only put in if it is not there yet. -/
def declareInPlace (owner name : String) : InPlace DeclarationError Variables Unit := do
  if (← get).contains name then
    throw (.duplicateSymbol owner name .variableName)
  modify (·.insert name)

/-- Sets of one size are equal when the second has every name of the first. -/
instance : BEq Variables where
  beq a b := a.size == b.size && a.names.all b.contains

/-! ## Declaring -/

@[ext] theorem ext {a b : Variables} (h : a.toList = b.toList) : a = b := by
  cases a; cases b; cases h; rfl

theorem mem_toList {vars : Variables} {name : String} :
    name ∈ vars.toList ↔ name ∈ vars := Iff.rfl

@[simp] theorem contains_eq_true_iff {vars : Variables} {name : String} :
    vars.contains name = true ↔ name ∈ vars := decide_eq_true_iff

/-- A new name is added at the end. -/
theorem declare_eq_ok_iff {vars next : Variables} {owner name : String} :
    vars.declare owner name = .ok next ↔
      name ∉ vars ∧ next.toList = vars.toList ++ [name] := by
  unfold declare
  split
  · rename_i hmem
    simp [mem_toList.mp hmem]
  · rename_i hmem
    rw [Except.ok.injEq, Variables.ext_iff, eq_comm]
    exact (and_iff_right hmem).symm

/-- A name that is there already is refused. -/
theorem declare_eq_error_iff {vars : Variables} {owner name : String} {e : DeclarationError} :
    vars.declare owner name = .error e ↔
      name ∈ vars ∧ e = .duplicateSymbol owner name .variableName := by
  unfold declare
  split
  · rename_i hmem
    rw [Except.error.injEq, eq_comm]
    exact (and_iff_right hmem).symm
  · rename_i hmem
    exact iff_of_false (by simp) fun h => hmem h.1

theorem toList_insert_of_notMem {vars : Variables} {name : String} (h : name ∉ vars) :
    (vars.insert name).toList = vars.toList ++ [name] := by
  have hnames : name ∉ vars.names := h
  rw [insert, dif_neg hnames]
  rfl

/-- A new name is put in, and a name that is there already is refused. -/
theorem declare_eq_ite (vars : Variables) (owner name : String) :
    vars.declare owner name =
      if vars.contains name then .error (.duplicateSymbol owner name .variableName)
      else .ok (vars.insert name) := by
  by_cases h : name ∈ vars
  · rw [if_pos (contains_eq_true_iff.2 h), declare_eq_error_iff]
    exact ⟨h, rfl⟩
  · rw [if_neg (mt contains_eq_true_iff.1 h), declare_eq_ok_iff]
    exact ⟨h, toList_insert_of_notMem h⟩

/-- Declaring in place is declaring, and a refusal changes nothing. -/
theorem effect_declareInPlace (vars : Variables) (owner name : String) :
    (declareInPlace owner name).effect vars = InPlace.outcome vars (vars.declare owner name) := by
  change InPlace.effect (if vars.contains name then
      throw (DeclarationError.duplicateSymbol owner name .variableName)
    else
      modify (·.insert name)) vars = _
  rw [declare_eq_ite]
  split <;> rfl

end Variables

end FuzzyHierarchy
