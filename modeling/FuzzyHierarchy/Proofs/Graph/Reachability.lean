import FuzzyHierarchy.Graph.Basic
import Mathlib.Logic.Relation

/-
Paths in a graph. Two nodes are mutual when each reaches the other; the nodes that are mutual with
one node are its strongly connected component. A node lies on a cycle when a path of at least one
edge leads from it back to itself: it has a mutual node besides itself, or is its own successor.
-/

namespace FuzzyHierarchy

namespace Graph

/-- The successors of a node, none for one outside the graph. -/
def next (graph : Graph) (node : Nat) : List Nat := graph.successors[node]?.getD []

/-- An edge from `u` to `v`. -/
def Edge (graph : Graph) (u v : Nat) : Prop := v ∈ graph.next u

instance (graph : Graph) (u v : Nat) : Decidable (graph.Edge u v) :=
  inferInstanceAs (Decidable (v ∈ graph.next u))

/-- All edges lead to nodes of the graph. -/
def Closed (graph : Graph) : Prop := ∀ u v, graph.Edge u v → v < graph.size

/-- A path of any length from `u` to `v`. -/
def Reaches (graph : Graph) : Nat → Nat → Prop := Relation.ReflTransGen graph.Edge

/-- Paths in both directions. -/
def Mutual (graph : Graph) (u v : Nat) : Prop := graph.Reaches u v ∧ graph.Reaches v u

/-- A path of at least one edge from a node to itself. -/
def OnCycle (graph : Graph) (u : Nat) : Prop := Relation.TransGen graph.Edge u u

variable {graph : Graph} {u v w : Nat}

theorem successorsOf_eq_ok (h : u < graph.size) : graph.successorsOf u = .ok (graph.next u) := by
  unfold size at h
  simp [successorsOf, next, h]

theorem next_eq_nil (h : graph.size ≤ u) : graph.next u = [] := by
  unfold size at h
  simp [next, h]

theorem Edge.lt_size (h : graph.Edge u v) : u < graph.size := by
  refine Nat.lt_of_not_le fun hge => ?_
  rw [Edge, next_eq_nil hge] at h
  cases h

/-! ## Paths -/

@[refl] theorem Reaches.refl (u : Nat) : graph.Reaches u u := Relation.ReflTransGen.refl

theorem Reaches.trans (huv : graph.Reaches u v) (hvw : graph.Reaches v w) : graph.Reaches u w :=
  Relation.ReflTransGen.trans huv hvw

theorem Edge.reaches (h : graph.Edge u v) : graph.Reaches u v := Relation.ReflTransGen.single h

/-- A set of nodes that no edge leaves holds all that its nodes reach. -/
theorem Reaches.mem_of_closed (h : graph.Reaches u v) (nodes : Nat → Prop)
    (hclosed : ∀ u v, nodes u → graph.Edge u v → nodes v) (hu : nodes u) : nodes v := by
  induction h with
  | refl => exact hu
  | tail _ hedge ih => exact hclosed _ _ ih hedge

/-! ## Components -/

@[refl] theorem Mutual.refl (u : Nat) : graph.Mutual u u := ⟨.refl u, .refl u⟩

theorem Mutual.symm (h : graph.Mutual u v) : graph.Mutual v u := ⟨h.2, h.1⟩

theorem Mutual.trans (huv : graph.Mutual u v) (hvw : graph.Mutual v w) : graph.Mutual u w :=
  ⟨huv.1.trans hvw.1, hvw.2.trans huv.2⟩

theorem Mutual.congr (h : graph.Mutual u v) : graph.Mutual u w ↔ graph.Mutual v w :=
  ⟨h.symm.trans, h.trans⟩

theorem onCycle_iff : graph.OnCycle u ↔ ∃ v, graph.Edge u v ∧ graph.Reaches v u :=
  Relation.TransGen.head'_iff

theorem Mutual.onCycle (h : graph.Mutual u v) (hne : u ≠ v) : graph.OnCycle u := by
  rcases Relation.reflTransGen_iff_eq_or_transGen.1 h.1 with heq | hpath
  · exact absurd heq.symm hne
  · exact hpath.trans_left h.2

/-- A node that is alone in its component lies on a cycle only as its own successor. -/
theorem onCycle_iff_edge_of_alone (halone : ∀ v, graph.Mutual u v → v = u) :
    graph.OnCycle u ↔ graph.Edge u u := by
  constructor
  · intro h
    obtain ⟨v, hedge, hback⟩ := onCycle_iff.1 h
    have hv : v = u := halone v ⟨hedge.reaches, hback⟩
    exact hv ▸ hedge
  · exact Relation.TransGen.single

end Graph

end FuzzyHierarchy
