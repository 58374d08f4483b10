import FuzzyHierarchy.Proofs.Graph.ComponentSearch

/-
Graphs that differ in repeated edges only: each node has the same successors, first met in the same
order. The paths of such graphs are the same, and a search that comes to a successor again finds it
discovered, so the searches are the same too.

Main statement: the order of the components and the cyclic nodes are those of the graph in which
every edge is kept once.
-/

namespace FuzzyHierarchy

namespace Graph

/-- The same nodes, each with the same successors in the order of their first occurrences. -/
structure SameFirstEdges (a b : Graph) : Prop where
  size_eq : a.size = b.size
  eraseDups_next : ∀ n, (a.next n).eraseDups = (b.next n).eraseDups

variable {graph a b : Graph} {t : Traversal} {node u v : Nat}

/-! ## Searches from lists with repeats -/

/-- A node that is discovered can be left out. -/
theorem visit_filter_ne (h : node ∈ t.discovered) (nodes : List Nat) :
    graph.visit (nodes.filter (!· == node)) t = graph.visit nodes t := by
  induction nodes generalizing t with
  | nil => rfl
  | cons other nodes ih =>
    by_cases hsame : other = node
    · subst hsame
      rw [List.filter_cons_of_neg (by simp), visit_cons_of_mem h, ih h]
    · have hgrown : node ∈ (graph.visit [other] t).discovered :=
        (graph.discovered_visit [other] t).1.subset h
      rw [List.filter_cons_of_pos (by simpa using hsame), visit_cons, ih hgrown, ← visit_cons]

theorem visit_eraseDups (nodes : List Nat) (t : Traversal) :
    graph.visit nodes.eraseDups t = graph.visit nodes t := by
  -- what is left after the first node is shorter, but it is not the tail of the list
  induction hlength : nodes.length using Nat.strong_induction_on generalizing nodes t with
  | _ length ih =>
    subst hlength
    cases nodes with
    | nil => rfl
    | cons node nodes =>
      have hshorter : (nodes.filter (!· == node)).length < (node :: nodes).length :=
        Nat.lt_succ_of_le (List.length_filter_le _ _)
      have hnode : node ∈ (graph.visit [node] t).discovered :=
        (graph.discovered_visit [node] t).2 node (List.mem_singleton_self node)
      calc graph.visit (node :: nodes).eraseDups t
          = graph.visit (nodes.filter (!· == node)).eraseDups (graph.visit [node] t) := by
            rw [List.eraseDups_cons, visit_cons]
        _ = graph.visit (nodes.filter (!· == node)) (graph.visit [node] t) :=
            ih _ hshorter _ _ rfl
        _ = graph.visit (node :: nodes) t := by
            rw [visit_filter_ne hnode, ← visit_cons]

namespace SameFirstEdges

variable (h : SameFirstEdges a b)

include h

/-! ## The same paths -/

theorem edge_eq : a.Edge = b.Edge := by
  funext u v
  rw [Edge, Edge, ← List.mem_eraseDups, h.eraseDups_next, List.mem_eraseDups]

theorem mutual_iff : a.Mutual u v ↔ b.Mutual u v := by
  rw [Mutual, Mutual, Reaches, Reaches, h.edge_eq]

theorem onCycle_iff : a.OnCycle u ↔ b.OnCycle u := by
  rw [OnCycle, OnCycle, h.edge_eq]

/-! ## The same searches -/

theorem visit_eq (nodes : List Nat) (t : Traversal) : b.visit nodes t = a.visit nodes t := by
  induction nodes, t using visit_induction a with
  | nil t => exact visit_nil
  | seen node nodes t hmem ih => rw [visit_cons_of_mem hmem, ih]
  | new node nodes t hnew below after hbelow hafter =>
    have hnext : b.visit (b.next node) (t.discover node) = below := by
      rw [← visit_eraseDups, ← h.eraseDups_next, visit_eraseDups, hbelow]
    rw [visit_cons_of_not_mem hnew, hnext, hafter]

theorem traversal_eq : b.traversal = a.traversal := by
  rw [traversal, traversal, h.visit_eq, h.size_eq]

theorem componentOrder_eq (t : Traversal) : b.componentOrder t = a.componentOrder t := by
  have hcomponent : ∀ n, b.component t n = a.component t n := fun n =>
    List.filter_congr fun m _ => decide_eq_decide.2 h.mutual_iff.symm
  simp only [componentOrder, hcomponent]

theorem order_eq {s s' : Search} (hsolved : a.Solved s) (hsolved' : b.Solved s') :
    s.order.toList = s'.order.toList := by
  rw [hsolved.order, hsolved'.order, h.traversal_eq, h.componentOrder_eq]

theorem cyclic_eq {s s' : Search} (hsolved : a.Solved s) (hsolved' : b.Solved s') :
    s.cyclic.toList = s'.cyclic.toList := by
  rw [hsolved.cyclic, hsolved'.cyclic, h.order_eq hsolved hsolved']
  exact List.filter_congr fun n _ => decide_eq_decide.2 h.onCycle_iff

end SameFirstEdges

end Graph

end FuzzyHierarchy
