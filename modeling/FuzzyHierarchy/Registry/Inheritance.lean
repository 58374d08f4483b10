import FuzzyHierarchy.Registry.Basic

/-
The superclass chain of a class, and the symbols that it finds along the chain. The nearest
declaration counts: one in a subclass shadows those above it. Ids that the registry does not hold
have no superclass, an empty chain and no symbols.
-/

namespace FuzzyHierarchy

namespace Registry

/-- The class of `start` and those above it, nearest first. A chain cannot have more classes than
there are slots, which `bound` counts down. -/
def chain (registry : Registry) :
    (bound : Nat) → (start : Option ClassId) → Except Fault (List (ClassId × FuzzyClass))
  | _, none => .ok []
  | 0, some id => .error (.endlessChain id)
  | bound + 1, some id => do
    let cls ← registry.fetch id
    let above ← registry.chain bound cls.superclass?
    return (id, cls) :: above

/-- The superclass of a class. -/
def superclassOf? (registry : Registry) (id : ClassId) : Except Fault (Option FuzzyClass) :=
  match (registry.get? id).bind (·.superclass?) with
  | none => .ok none
  | some parent => some <$> registry.fetch parent

/-- The ids above a class, nearest first, without the class itself. -/
def ancestors (registry : Registry) (id : ClassId) : Except Fault (List ClassId) :=
  match registry.get? id with
  | none => .ok []
  | some cls => (·.map Prod.fst) <$> registry.chain registry.slots.size cls.superclass?

/-- A class followed by those above it, nearest first. -/
def lineage (registry : Registry) (id : ClassId) : Except Fault (List FuzzyClass) :=
  if registry.holds id then
    (·.map Prod.snd) <$> registry.chain registry.slots.size (some id)
  else
    .ok []

/-- The nearest class of the lineage that declares the variable `name`. -/
def findVariable (registry : Registry) (id : ClassId) (name : String) :
    Except Fault (Option FuzzyClass) :=
  (·.find? (·.declares name)) <$> registry.lineage id

/-- The nearest class of the lineage that declares the constant `name`, with the value it gives. -/
def findConstant (registry : Registry) (id : ClassId) (name : String) :
    Except Fault (Option (FuzzyClass × String)) :=
  (·.findSome? fun cls => (cls.consts.get? name).map (cls, ·)) <$> registry.lineage id

end Registry

end FuzzyHierarchy
