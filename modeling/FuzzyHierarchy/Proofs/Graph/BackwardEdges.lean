import FuzzyHierarchy.Proofs.Graph.ComponentSearch

/-
Graphs of which every edge leads to an earlier node. A search of such a graph comes to each node
with the successors of the node discovered already, so it never goes deeper than its root.

Main statement: a search gives the nodes in increasing order, and none of them as cyclic, exactly
when every edge leads to an earlier node.
-/

namespace FuzzyHierarchy

namespace Graph

/-- Every edge leads to an earlier node. -/
def Backward (graph : Graph) : Prop := ∀ u v, graph.Edge u v → v < u

variable {graph : Graph} {u v : Nat} {s : Search}

namespace Backward

theorem le_of_reaches (h : graph.Backward) (hpath : graph.Reaches u v) : v ≤ u := by
  refine hpath.mem_of_closed (· ≤ u) (fun a b ha hedge => ?_) (Nat.le_refl u)
  have hlt := h a b hedge
  omega

theorem not_onCycle (h : graph.Backward) : ¬ graph.OnCycle u := by
  rw [onCycle_iff]
  rintro ⟨v, hedge, hback⟩
  have hlt := h u v hedge
  have hle := h.le_of_reaches hback
  omega

/-- The roots are finished in the order in which they are taken. -/
theorem visit_range (h : graph.Backward) (n : Nat) :
    graph.visit (List.range n) {} = { discovered := List.range n, finished := List.range n } := by
  induction n with
  | zero => exact visit_nil
  | succ n ih =>
    let t : Traversal := { discovered := List.range n, finished := List.range n }
    have hnew : n ∉ t.discovered := List.not_mem_range_self
    -- the roots before `n` are all the nodes that it can have as successors
    have hnext : graph.next n ⊆ (t.discover n).discovered := fun v hedge =>
      List.mem_append_left _ (List.mem_range.2 (h n v hedge))
    rw [List.range_succ, visit_append, ih, visit_cons_of_not_mem hnew, visit_of_subset hnext,
      visit_nil]
    rfl

end Backward

theorem Solved.order_eq_range_iff (hsolved : graph.Solved s) (hclosed : graph.Closed) :
    s.order.toList = List.range graph.size ∧ s.cyclic.toList = [] ↔ graph.Backward := by
  constructor
  · rintro ⟨horder, hcyclic⟩ u v hedge
    by_contra hle
    have hu : u < graph.size := hedge.lt_size
    have hacyclic : ¬ graph.OnCycle u := by
      rw [hsolved.cyclic, horder, List.filter_eq_nil_iff] at hcyclic
      simpa using hcyclic u (List.mem_range.2 hu)
    -- a node that does not come before `u` leads back to it, since it comes after it in the order
    have hback : graph.Reaches v u := by
      rcases Nat.lt_or_eq_of_le (Nat.not_lt.1 hle) with hlt | rfl
      · have hv : v < graph.size := hclosed u v hedge
        have hpair := List.pairwise_iff_getElem.1 (horder ▸ hsolved.settled) u v
          (by simpa using hu) (by simpa using hv) hlt
        rw [List.getElem_range, List.getElem_range] at hpair
        exact hpair hedge.reaches
      · exact .refl u
    exact hacyclic (onCycle_iff.2 ⟨v, hedge, hback⟩)
  · intro h
    constructor
    · rw [hsolved.order, componentOrder_eq_finished nodup_discovered_traversal
        finished_traversal_subset fun _ => h.not_onCycle, traversal, h.visit_range]
    · rw [hsolved.cyclic, List.filter_eq_nil_iff]
      intro n _
      simpa using h.not_onCycle

end Graph

end FuzzyHierarchy
