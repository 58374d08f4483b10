import FuzzyHierarchy.Dependency
import FuzzyHierarchy.Graph.Search
import FuzzyHierarchy.Registry.Basic

/-
The evaluation schedule of a registry. Its graph has an edge from each class to its superclass and
one to the target of each dependency, in this order. The schedule is the order in which a search
completes the strongly connected components of the graph, so superclasses and targets come first as
far as cycles allow.
-/

namespace FuzzyHierarchy

/-- The order in which the classes are evaluated, and those of them that lie on a cycle. -/
structure Schedule where
  order : List ClassId := []
  cyclic : List ClassId := []
  deriving Repr

namespace Schedule

instance : EmptyCollection Schedule := ⟨{}⟩
instance : Inhabited Schedule := ⟨∅⟩

/-- Whether the class lies on a cycle. -/
def isCyclic (schedule : Schedule) (id : ClassId) : Bool := schedule.cyclic.contains id

/-- The orders are compared as lists, the cyclic classes as sets of one size. -/
instance : BEq Schedule where
  beq a b := a.order == b.order &&
    (a.cyclic.length == b.cyclic.length && a.cyclic.all b.cyclic.contains)

end Schedule

namespace Registry

/-! ## The graph

The nodes are the places of the classes in the order of registration. -/

/-- The place of an id in the order of registration. -/
def placeOf? (registry : Registry) (id : ClassId) : Option Nat :=
  registry.table.findIdx? (·.2 == id)

/-- The id in a place of the order of registration. -/
def idAt? (registry : Registry) (place : Nat) : Option ClassId :=
  registry.table[place]?.map Prod.snd

/-- The edge of a class to its superclass. -/
def inheritedEdge (registry : Registry) (cls : FuzzyClass) : Except Fault (List Nat) :=
  match cls.superclass? with
  | none => .ok []
  | some parent =>
    match registry.placeOf? parent with
    | some place => .ok [place]
    | none => .error (.notHeld parent)

/-- The node of the class called `name`, which `dependency` refers to. -/
def nodeOf (registry : Registry) (dependency : Dependency) (name : String) : Except Fault Nat :=
  match (registry.idOf? name).bind registry.placeOf? with
  | some place => .ok place
  | none => .error (.danglingDependency dependency.owner dependency.target)

/-- Adds the edge of a dependency. -/
def addDependency (registry : Registry) (graph : Graph) (dependency : Dependency) :
    Except Fault Graph := do
  let owner ← registry.nodeOf dependency dependency.owner
  let target ← registry.nodeOf dependency dependency.target
  graph.addEdge owner target

/-- The graph on the classes: the superclass of a class first, then the targets of its dependencies
in their order. -/
def dependencyGraph (registry : Registry) (dependencies : List Dependency) :
    Except Fault Graph := do
  let entries ← registry.entries
  let inherited ← entries.mapM fun (_, cls) => registry.inheritedEdge cls
  dependencies.foldlM registry.addDependency ⟨inherited.toArray⟩

/-- The schedule of the classes. -/
def schedule (registry : Registry) (dependencies : List Dependency) : Except Fault Schedule := do
  let graph ← registry.dependencyGraph dependencies
  let search ← graph.search
  return {
    order := search.order.toList.filterMap registry.idAt?
    cyclic := search.cyclic.toList.filterMap registry.idAt? }

end Registry

end FuzzyHierarchy
