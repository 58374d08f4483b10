import FuzzyHierarchy.Fault

/-
Directed graphs on the nodes `0, …, n - 1`, each with its list of successors. Repeated edges and
edges from a node to itself are kept, and the order of a successor list is that of a search.
-/

namespace FuzzyHierarchy

/-- The successor lists of the nodes. -/
structure Graph where
  successors : Array (List Nat) := #[]

namespace Graph

/-- The number of nodes. -/
def size (graph : Graph) : Nat := graph.successors.size

/-- The successor list of a node of the graph. -/
def successorsOf (graph : Graph) (node : Nat) : Except Fault (List Nat) :=
  match graph.successors[node]? with
  | some successors => .ok successors
  | none => .error (.unknownNode node)

/-- The number of edges that leave a node. -/
def degree (graph : Graph) (node : Nat) : Nat := (graph.successors[node]?.getD []).length

/-- Adds an edge at the end of the successor list of `node`. -/
def addEdge (graph : Graph) (node successor : Nat) : Except Fault Graph :=
  match graph.successors[node]? with
  | none => .error (.noSuccessorList node)
  | some successors => .ok ⟨graph.successors.set! node (successors ++ [successor])⟩

end Graph

end FuzzyHierarchy
