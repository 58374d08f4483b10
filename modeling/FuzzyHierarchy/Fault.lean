import FuzzyHierarchy.ClassId

/-
States that correct use of the library does not meet. A function that relies on an invariant made
elsewhere answers with a fault where the invariant does not hold, so that "it never happens" can be
said of the function itself. What a user can do wrong is a `DeclarationError` and not a fault.
-/

namespace FuzzyHierarchy

/-- A broken invariant. -/
inductive Fault where
  /-- A class is fetched by an id that the registry does not hold. -/
  | notHeld (id : ClassId)
  /-- A superclass chain has more classes than there are slots. -/
  | endlessChain (id : ClassId)
  /-- A dependency names a class that is not registered. -/
  | danglingDependency (owner target : String)
  /-- An edge is added to a node that has no successor list. -/
  | noSuccessorList (node : Nat)
  /-- A search comes to a node that is not in the graph. -/
  | unknownNode (node : Nat)
  /-- The index or the lowlink of a node is read before its discovery. -/
  | undiscovered (node : Nat)
  /-- A component is taken off a stack that does not hold its root. -/
  | emptyStack (root : Nat)
  /-- A diagnostic is emitted without a message. -/
  | messageMissing
  deriving DecidableEq, Repr

/-- A computation that succeeds after another one has a value of that one to go on with. -/
theorem exists_of_bind_eq_ok {ε α β : Type} {x : Except ε α} {f : α → Except ε β} {b : β}
    (h : x >>= f = .ok b) : ∃ a, x = .ok a ∧ f a = .ok b := by
  cases x with
  | error _ => cases h
  | ok a => exact ⟨a, rfl, h⟩

theorem exists_of_map_eq_ok {ε α β : Type} {x : Except ε α} {f : α → β} {b : β}
    (h : f <$> x = .ok b) : ∃ a, x = .ok a ∧ f a = b := by
  cases x with
  | error _ => cases h
  | ok a => exact ⟨a, rfl, Except.ok.inj h⟩

/-- A computation goes on with the value of one that succeeds before it. -/
theorem bind_of_eq_ok {ε α β : Type} {x : Except ε α} {a : α} (h : x = .ok a)
    (f : α → Except ε β) : x >>= f = f a := by
  rw [h]
  rfl

end FuzzyHierarchy
