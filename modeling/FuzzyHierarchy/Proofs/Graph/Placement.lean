import FuzzyHierarchy.Proofs.Graph.Lowlink

/-
What the order and the cyclic nodes of a search state say. The order is that of the components in
the traversal so far, no edge leaves it, and of two nodes in it that are not mutual the later one is
not reached from the earlier one. The cyclic nodes are those of the order that lie on a cycle, in
the same order.

Main statement: every move keeps this.
-/

namespace FuzzyHierarchy

namespace Graph

variable {graph : Graph} {t : Traversal} {node n m : Nat}

theorem component_discover :
    graph.component (t.discover m) n =
      graph.component t n ++ if graph.Mutual n m then [m] else [] := by
  rw [component, component, Traversal.discovered_discover, List.filter_append]
  by_cases h : graph.Mutual n m <;> simp [h]

theorem componentOrder_finish :
    graph.componentOrder (t.finish node) = graph.componentOrder t ++
      if (graph.component t node).head? = some node then graph.component t node else [] := by
  simp [componentOrder, component]

end Graph

namespace Search

/-- The completed components of a search state. -/
structure Placement (graph : Graph) (s : Search) (t : Traversal) : Prop where
  closed : ∀ u v, u ∈ s.order → graph.Edge u v → v ∈ s.order
  order : s.order.toList = graph.componentOrder t
  cyclic : s.cyclic.toList = s.order.toList.filter (graph.OnCycle ·)
  settled : s.order.toList.Pairwise fun u v => graph.Reaches u v → graph.Reaches v u

variable {graph : Graph} {s : Search} {t : Traversal} {node n m : Nat} {outer : List Frame}

theorem Tracks.rank_le_of_head_component (ht : Tracks graph s t) (hn : n ∈ t.discovered)
    (hhead : (graph.component t n).head? = some n) (hm : m ∈ t.discovered)
    (hmutual : graph.Mutual n m) : s.rank n ≤ s.rank m := by
  rw [Graph.component, List.head?_filter, List.find?_eq_some_iff_getElem] at hhead
  obtain ⟨-, i, hi, hget, hfirst⟩ := hhead
  rw [(ht.rank_eq_iff hn).2 (List.getElem?_eq_some_iff.2 ⟨hi, hget⟩)]
  by_contra hlt
  obtain ⟨hj, hget⟩ := List.getElem?_eq_some_iff.1 (ht.getElem?_rank hm)
  have hnot := hfirst (s.rank m) (Nat.not_le.1 hlt)
  rw [hget] at hnot
  simp [hmutual] at hnot

/-- A finished node on the stack is not the first of its component in the traversal. -/
theorem Lowlinks.head_component_ne (h : Lowlinks graph s) (ht : Tracks graph s t)
    (hn : n ∈ s.stack) (hactive : n ∉ s.frames.map Frame.node) :
    (graph.component t n).head? ≠ some n := by
  intro hhead
  obtain ⟨p, hp, hmutual, hlt⟩ := h.exists_earlier ht hn hactive
  exact Nat.not_lt.2 (ht.rank_le_of_head_component (ht.stack_subset hn) hhead hp hmutual) hlt

namespace Placement

theorem start : Placement graph {} {} where
  closed u v hu := by simp at hu
  order := rfl
  cyclic := rfl
  settled := .nil

/-- The components that are complete do not change when a node is discovered. -/
theorem componentOrder_discover (h : Placement graph s t) (hlow : Lowlinks graph s)
    (ht : Tracks graph s t) (hnew : m ∉ t.discovered) :
    graph.componentOrder (t.discover m) = graph.componentOrder t := by
  rw [Graph.componentOrder, Graph.componentOrder, Traversal.finished_discover, List.flatMap_def,
    List.flatMap_def]
  congr 1
  refine List.map_congr_left fun n hn => ?_
  obtain ⟨hdisc, hactive⟩ := (ht.finished n).1 hn
  rw [Graph.component_discover]
  by_cases hmutual : graph.Mutual n m
  · -- `n` is not in the order, which is closed, so it is on the stack behind an earlier node
    have hstack : n ∈ s.stack := by
      refine (ht.mem_stack n).2 ⟨hdisc, fun hplaced => hnew (ht.order_subset m ?_)⟩
      exact hmutual.1.mem_of_closed (· ∈ s.order) h.closed hplaced
    have hne := hlow.head_component_ne ht hstack hactive
    have hmem : n ∈ graph.component t n := by
      simpa [Graph.component, hdisc] using Graph.Mutual.refl n
    rw [if_neg hne, if_pos hmutual, List.head?_append_of_ne_nil _ (List.ne_nil_of_mem hmem),
      if_neg hne]
  · rw [if_neg hmutual, List.append_nil]

/-- An exhausted node that leads back completes no component. -/
theorem componentOrder_retreat {s' : Search} (hlow : Lowlinks graph s')
    (ht : Tracks graph s' (t.finish node)) (hstack : node ∈ s'.stack)
    (hactive : node ∉ s'.frames.map Frame.node) :
    graph.componentOrder (t.finish node) = graph.componentOrder t := by
  have hne : (graph.component t node).head? ≠ some node :=
    hlow.head_component_ne (t := t.finish node) ht hstack hactive
  rw [Graph.componentOrder_finish, if_neg hne, List.append_nil]

section Root

variable {upper rest : List Nat} (h : Placement graph s t) (hlow : Lowlinks graph s)
  (ht : Tracks graph s t) (hframes : s.frames = ⟨node, []⟩ :: outer)
  (hroot : s.low node = s.rank node) (hstack : s.stack = upper ++ node :: rest)

include h hlow ht hframes hroot hstack

theorem mutual_iff_mem_upper : graph.Mutual node n ↔ n ∈ node :: upper.reverse := by
  rw [ht.mem_upper_iff hstack]
  exact hlow.mutual_root_iff ht hframes hroot h.closed

/-- The part of the stack down to a root, from the root up, is its component. -/
theorem component_eq_upper : graph.component t node = node :: upper.reverse := by
  have hsublist := ht.stack
  rw [hstack, List.reverse_append, List.reverse_cons, List.append_assoc] at hsublist
  exact filter_eq_of_sublist ((List.sublist_append_right _ _).trans hsublist) ht.discovered_nodup
    fun n => h.mutual_iff_mem_upper hlow ht hframes hroot hstack

/-- The nodes of a completed component lie on a cycle all together. -/
theorem onCycle_root_iff (hn : n ∈ node :: upper.reverse) :
    graph.OnCycle n ↔
      ((node :: upper.reverse).length > 1 || (graph.next node).contains node) = true := by
  have hmutual := fun m => h.mutual_iff_mem_upper hlow ht hframes hroot hstack (n := m)
  have hnot := ht.not_mem_upper hstack
  rw [Bool.or_eq_true, decide_eq_true_eq, List.contains_iff_mem]
  cases upper with
  | nil =>
    have halone : ∀ m, graph.Mutual node m → m = node := fun m hm => by
      simpa using (hmutual m).1 hm
    rw [show n = node by simpa using hn, Graph.onCycle_iff_edge_of_alone halone]
    simp [Graph.Edge]
  | cons u upper =>
    refine iff_of_true ?_ (.inl (by simp))
    have hu : graph.Mutual node u := (hmutual u).2 (by simp)
    have hne : node ≠ u := fun heq => hnot (by simp [heq])
    by_cases hn' : n = node
    · rw [hn']
      exact hu.onCycle hne
    · exact ((hmutual n).2 hn).symm.onCycle hn'

theorem completed :
    Placement graph ((({ s with frames := outer } : Search).innermostLowered (s.low node)).placed
      (node :: upper.reverse) rest
      ((node :: upper.reverse).length > 1 || (graph.next node).contains node)) (t.finish node) := by
  have hmutual := fun m => h.mutual_iff_mem_upper hlow ht hframes hroot hstack (n := m)
  have hupper := fun m => ht.mem_upper_iff hstack (m := m)
  have hcomponent := h.component_eq_upper hlow ht hframes hroot hstack
  refine ⟨fun u v hu hedge => ?_, ?_, ?_, ?_⟩
  · rw [mem_order_placed] at hu ⊢
    rcases hu with hu | hu
    · exact .inl (h.closed u v hu hedge)
    · obtain ⟨hu, hle⟩ := (hupper u).1 hu
      exact (hlow.edge_root ht hframes hroot hu hle hedge).symm.imp_right (hupper v).2
  · rw [order_placed, Graph.componentOrder_finish, hcomponent, List.head?_cons, if_pos rfl]
    exact congrArg (· ++ _) h.order
  · rw [cyclic_placed, order_placed, List.filter_append]
    refine congr (congrArg _ h.cyclic) ?_
    have honCycle := fun n => h.onCycle_root_iff hlow ht hframes hroot hstack (n := n)
    split
    · rename_i hflag
      exact (List.filter_eq_self.2 fun n hn => decide_eq_true ((honCycle n hn).2 hflag)).symm
    · rename_i hflag
      exact (List.filter_eq_nil_iff.2 fun n hn => by simpa using mt (honCycle n hn).1 hflag).symm
  · rw [order_placed]
    refine List.pairwise_append.2 ⟨h.settled, List.pairwise_of_forall_mem_list ?_, ?_⟩
    · exact fun u hu v hv _ => ((hmutual v).2 hv).2.trans ((hmutual u).2 hu).1
    · intro u hu v hv hreach
      have hplaced : v ∈ s.order :=
        hreach.mem_of_closed (· ∈ s.order) h.closed (Array.mem_toList_iff.1 hu)
      exact absurd hplaced ((ht.mem_stack v).1 ((hupper v).1 hv).1).2

end Root

/-- Whatever move a step is, the completed components say the same again. -/
theorem move (h : Placement graph s t) (hlow : Lowlinks graph s) (ht : Tracks graph s t)
    {s' : Search} {t' : Traversal} (hmove : Move graph s t s' t') (hlow' : Lowlinks graph s')
    (ht' : Tracks graph s' t') : Placement graph s' t' := by
  cases hmove with
  | descend hframes hnew =>
    exact { h with order := h.order.trans (h.componentOrder_discover hlow ht hnew).symm }
  | tighten hframes hstack => exact { h with }
  | skip hframes hplaced => exact { h with }
  | @retreat node outer hframes hroot =>
    have hactive := ht.stack_nodup.sublist ht.frames
    rw [hframes, List.map_cons, List.nodup_cons] at hactive
    have hstack : node ∈ s.stack := ht.frame_on_stack (hframes ▸ List.mem_cons_self)
    exact { h with order := h.order.trans (componentOrder_retreat hlow' ht' hstack hactive.1).symm }
  | complete hframes hroot hstack => exact h.completed hlow ht hframes hroot hstack

end Placement

end Search

end FuzzyHierarchy
