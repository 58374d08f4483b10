import FuzzyHierarchy.Proofs.Graph.ComponentSearch

/-
Graphs that get more nodes while the old ones keep their successors. Nothing leads from an old node
to a new one, so what old nodes reach stays the same, and the search of the larger graph begins with
the search of the smaller one.

Main statements: the component order of the larger graph begins with that of the smaller one, and so
do the cyclic nodes among them.
-/

namespace FuzzyHierarchy

namespace Graph

/-- The graph `b` has the nodes of `a` with the same successors, and maybe more nodes after them. -/
structure Extends (a b : Graph) : Prop where
  size_le : a.size ≤ b.size
  next_eq : ∀ n < a.size, b.next n = a.next n

variable {graph a b : Graph} {t : Traversal} {nodes : List Nat} {u v : Nat}

/-- A search only adds to the finished nodes. -/
theorem finished_visit (graph : Graph) (nodes : List Nat) (t : Traversal) :
    t.finished <+: (graph.visit nodes t).finished := by
  induction nodes, t using visit_induction graph with
  | nil t => exact List.prefix_rfl
  | seen node nodes t hmem ih => exact ih
  | new node nodes t hnew below after hbelow hafter =>
    exact (hbelow.trans (List.prefix_append _ _)).trans hafter

namespace Extends

/-! ## Paths from old nodes -/

theorem edge_iff (h : Extends a b) (hu : u < a.size) : b.Edge u v ↔ a.Edge u v := by
  rw [Edge, Edge, h.next_eq u hu]

theorem reaches_of_reaches (h : Extends a b) (hpath : a.Reaches u v) : b.Reaches u v := by
  refine Relation.ReflTransGen.mono (fun x y hedge => ?_) _ _ hpath
  exact (h.edge_iff hedge.lt_size).2 hedge

variable (h : Extends a b) (hclosed : a.Closed)

include h hclosed

/-- An old node reaches what it reached, and nothing else. -/
theorem reaches_old (hu : u < a.size) (hpath : b.Reaches u v) : a.Reaches u v ∧ v < a.size := by
  refine hpath.mem_of_closed (fun v => a.Reaches u v ∧ v < a.size) (fun x y hx hedge => ?_)
    ⟨.refl u, hu⟩
  have hold := (h.edge_iff hx.2).1 hedge
  exact ⟨hx.1.trans hold.reaches, hclosed x y hold⟩

theorem mutual_iff (hu : u < a.size) : b.Mutual u v ↔ a.Mutual u v := by
  constructor
  · intro hmutual
    obtain ⟨hforth, hv⟩ := h.reaches_old hclosed hu hmutual.1
    exact ⟨hforth, (h.reaches_old hclosed hv hmutual.2).1⟩
  · exact fun hmutual => ⟨h.reaches_of_reaches hmutual.1, h.reaches_of_reaches hmutual.2⟩

theorem onCycle_iff (hu : u < a.size) : b.OnCycle u ↔ a.OnCycle u := by
  rw [Graph.onCycle_iff, Graph.onCycle_iff]
  refine exists_congr fun v => ?_
  rw [h.edge_iff hu]
  refine and_congr_right fun hedge => ⟨fun hback => ?_, h.reaches_of_reaches⟩
  exact (h.reaches_old hclosed (hclosed u v hedge) hback).1

/-! ## The search of the larger graph -/

/-- A search from old nodes does not see the difference. -/
theorem visit_eq (nodes : List Nat) (t : Traversal) :
    (∀ n ∈ nodes, n < a.size) → b.visit nodes t = a.visit nodes t := by
  induction nodes, t using visit_induction a with
  | nil t => exact fun _ => visit_nil
  | seen node nodes t hmem ih =>
    intro hlt
    rw [visit_cons_of_mem hmem, ih (List.forall_mem_cons.1 hlt).2]
  | new node nodes t hnew below after hbelow hafter =>
    intro hlt
    obtain ⟨hnode, hnodes⟩ := List.forall_mem_cons.1 hlt
    rw [visit_cons_of_not_mem hnew, h.next_eq node hnode, hbelow (hclosed node), hafter hnodes]

/-- The search of the larger graph goes on from that of the smaller one, with the new nodes. -/
theorem exists_traversal_eq : ∃ later, b.traversal = b.visit later a.traversal := by
  refine ⟨(List.range (b.size - a.size)).map (a.size + ·), ?_⟩
  have hrange : List.range b.size =
      List.range a.size ++ (List.range (b.size - a.size)).map (a.size + ·) := by
    rw [← List.range_add, Nat.add_sub_of_le h.size_le]
  rw [traversal, hrange, visit_append, h.visit_eq hclosed _ _ fun _ => List.mem_range.1,
    ← traversal]

theorem finished_traversal : a.traversal.finished <+: b.traversal.finished := by
  obtain ⟨later, hlater⟩ := h.exists_traversal_eq hclosed
  exact hlater ▸ b.finished_visit later _

/-- What the search of the larger graph discovers after the old nodes is new. -/
theorem exists_discovered_traversal_eq :
    ∃ new, b.traversal.discovered = a.traversal.discovered ++ new ∧ ∀ n ∈ new, a.size ≤ n := by
  obtain ⟨later, hlater⟩ := h.exists_traversal_eq hclosed
  obtain ⟨new, hnew⟩ := (b.discovered_visit later a.traversal).1
  rw [← hlater] at hnew
  refine ⟨new, hnew.symm, fun n hn => ?_⟩
  by_contra hlt
  have hold := (mem_discovered_traversal_iff hclosed).2 (Nat.not_le.1 hlt)
  have hnodup : (a.traversal.discovered ++ new).Nodup := hnew ▸ nodup_discovered_traversal
  exact List.disjoint_of_nodup_append hnodup hold hn

theorem component_eq (hu : u < a.size) :
    b.component b.traversal u = a.component a.traversal u := by
  obtain ⟨new, hdiscovered, hnew⟩ := h.exists_discovered_traversal_eq hclosed
  rw [component, component, hdiscovered, List.filter_append]
  -- an old node is in no component with a new one
  have hnone : new.filter (b.Mutual u ·) = [] := by
    refine List.filter_eq_nil_iff.2 fun n hn hmutual => ?_
    have hlt := (h.reaches_old hclosed hu (of_decide_eq_true hmutual).1).2
    exact absurd (hnew n hn) (Nat.not_le.2 hlt)
  rw [hnone, List.append_nil]
  exact List.filter_congr fun n _ => decide_eq_decide.2 (h.mutual_iff hclosed hu)

theorem componentOrder_prefix :
    a.componentOrder a.traversal <+: b.componentOrder b.traversal := by
  obtain ⟨later, hlater⟩ := h.finished_traversal hclosed
  rw [componentOrder, componentOrder, ← hlater, List.flatMap_append]
  have hsame : a.traversal.finished.flatMap (fun n =>
        if (b.component b.traversal n).head? = some n then b.component b.traversal n else []) =
      a.traversal.finished.flatMap fun n =>
        if (a.component a.traversal n).head? = some n then a.component a.traversal n else [] := by
    refine List.flatMap_congr fun n hn => ?_
    have hlt := (mem_discovered_traversal_iff hclosed).1 (finished_traversal_subset hn)
    rw [h.component_eq hclosed hlt]
  rw [hsame]
  exact List.prefix_append _ _

/-- The cyclic nodes of the larger graph begin with those of the smaller one. -/
theorem cyclic_prefix {s s' : Search} (hsolved : a.Solved s) (hsolved' : b.Solved s') :
    s.cyclic.toList <+: s'.cyclic.toList := by
  obtain ⟨later, hlater⟩ := h.componentOrder_prefix hclosed
  rw [← hsolved.order, ← hsolved'.order] at hlater
  rw [hsolved.cyclic, hsolved'.cyclic, ← hlater, List.filter_append]
  have hsame : s.order.toList.filter (b.OnCycle ·) = s.order.toList.filter (a.OnCycle ·) := by
    refine List.filter_congr fun n hn => decide_eq_decide.2 (h.onCycle_iff hclosed ?_)
    exact List.mem_range.1 (hsolved.perm.mem_iff.1 hn)
  rw [hsame]
  exact List.prefix_append _ _

end Extends

end Graph

end FuzzyHierarchy
