import FuzzyHierarchy.Proofs.Graph.Placement

/-
The search against the recursive traversal. A state whose frames are open stands for a traversal
that has still to visit the unexamined successors of each frame, from the innermost one outwards,
and every move leaves it at that.

Main statements: on a graph whose edges stay within it the search meets no fault, and when it ends
its order is the component order of the recursive traversal, with each node once, and its cyclic
nodes are those that lie on a cycle.
-/

namespace FuzzyHierarchy

namespace Graph

variable {graph : Graph} {t : Traversal}

/-- The rest of a traversal of which `frames` are open. -/
def resume (graph : Graph) : List Frame → Traversal → Traversal
  | [], t => t
  | frame :: outer, t => graph.resume outer ((graph.visit frame.unexamined t).finish frame.node)

end Graph

namespace Search

/-- What holds of every state of a search, with the traversal that it belongs to. -/
structure Invariant (graph : Graph) (s : Search) (t : Traversal) : Prop where
  tracks : Tracks graph s t
  lowlinks : Lowlinks graph s
  placement : Placement graph s t

/-- A move leaves the traversal that a state stands for as it is. -/
theorem Move.resume_eq {graph : Graph} {s s' : Search} {t t' : Traversal}
    (hmove : Move graph s t s' t') (ht : Tracks graph s t) :
    graph.resume s'.frames t' = graph.resume s.frames t := by
  cases hmove with
  | descend hframes hnew =>
    rw [hframes, Graph.resume, Graph.visit_cons_of_not_mem hnew]
    rfl
  | tighten hframes hstack =>
    rw [hframes, Graph.resume, Graph.visit_cons_of_mem (ht.stack_subset hstack)]
    rfl
  | skip hframes hplaced =>
    rw [hframes, Graph.resume, Graph.resume, Graph.visit_cons_of_mem (ht.order_subset _ hplaced)]
  | retreat hframes hlow =>
    rw [hframes, Graph.resume, Graph.visit_nil]
    rfl
  | complete hframes hlow hstack =>
    rw [hframes, Graph.resume, Graph.visit_nil]
    rfl

namespace Invariant

variable {graph : Graph} {s : Search} {t : Traversal} {root : Nat}

theorem start : Invariant graph {} {} := ⟨.start, .start, .start⟩

theorem move (h : Invariant graph s t) (hclosed : graph.Closed) {s' : Search} {t' : Traversal}
    (hmove : Move graph s t s' t') : Invariant graph s' t' :=
  have htracks := h.tracks.move hclosed hmove
  have hlowlinks := h.lowlinks.move h.tracks hmove
  ⟨htracks, hlowlinks, h.placement.move h.lowlinks h.tracks hmove hlowlinks htracks⟩

theorem openedRoot (h : Invariant graph s t) (hframes : s.frames = []) (hnew : root ∉ t.discovered)
    (hlt : root < graph.size) : Invariant graph (s.opened graph root) (t.discover root) where
  tracks := h.tracks.openedRoot hframes hnew hlt
  lowlinks := h.lowlinks.openedRoot h.tracks hframes hnew
  placement := { h.placement with
    order := h.placement.order.trans
      (h.placement.componentOrder_discover h.lowlinks h.tracks hnew).symm }

/-- Running a search finishes the traversal that its state stands for. -/
theorem run_eq_ok (h : Invariant graph s t) (hclosed : graph.Closed) :
    ∃ s', s.run graph = .ok s' ∧ s'.frames = [] ∧
      Invariant graph s' (graph.resume s.frames t) := by
  -- every step leaves less work
  induction hwork : s.work graph using Nat.strong_induction_on generalizing s t with
  | _ work ih =>
    by_cases hframes : s.frames = []
    · refine ⟨s, ?_, hframes, ?_⟩
      · rw [run, dif_pos hframes]
      · rw [hframes]
        exact h
    · obtain ⟨s', t', hstep, hmove⟩ := h.tracks.step_eq_ok hclosed hframes
      have hlt := work_step_lt hframes hstep
      obtain ⟨last, hrun, hlast, hinv⟩ := ih _ (hwork ▸ hlt) (h.move hclosed hmove) rfl
      refine ⟨last, ?_, hlast, hmove.resume_eq h.tracks ▸ hinv⟩
      rw [run, dif_neg hframes]
      split
      · rename_i fault hfault
        rw [hstep] at hfault
        cases hfault
      · rename_i next hnext
        rw [hstep] at hnext
        cases hnext
        exact hrun

theorem explore_eq_ok (h : Invariant graph s t) (hclosed : graph.Closed) (hframes : s.frames = [])
    (hlt : root < graph.size) :
    ∃ s', explore graph s root = .ok s' ∧ s'.frames = [] ∧
      Invariant graph s' (graph.visit [root] t) := by
  rw [explore]
  by_cases hnew : root ∈ t.discovered
  · rw [if_pos (h.tracks.index_contains.2 hnew), Graph.visit_cons_of_mem hnew, Graph.visit_nil]
    exact ⟨s, rfl, hframes, h⟩
  · rw [if_neg (mt h.tracks.index_contains.1 hnew), discover_eq_ok hlt,
      Graph.visit_cons_of_not_mem hnew, Graph.visit_nil]
    obtain ⟨s', hrun, hlast, hinv⟩ := (h.openedRoot hframes hnew hlt).run_eq_ok hclosed
    refine ⟨s', hrun, hlast, ?_⟩
    simpa only [Search.opened, hframes, Graph.resume] using hinv

theorem foldlM_explore_eq_ok (hclosed : graph.Closed) (roots : List Nat) (s : Search)
    (t : Traversal) (h : Invariant graph s t) (hframes : s.frames = [])
    (hlt : ∀ root ∈ roots, root < graph.size) :
    ∃ s', roots.foldlM (explore graph) s = .ok s' ∧ s'.frames = [] ∧
      Invariant graph s' (graph.visit roots t) := by
  induction roots generalizing s t with
  | nil =>
    rw [Graph.visit_nil]
    exact ⟨s, rfl, hframes, h⟩
  | cons root roots ih =>
    obtain ⟨s', hexplore, hframes', hinv⟩ :=
      h.explore_eq_ok hclosed hframes (hlt root List.mem_cons_self)
    obtain ⟨last, hrest, hlast, hinv'⟩ := ih s' _ hinv hframes' fun root' hmem =>
      hlt root' (List.mem_cons_of_mem _ hmem)
    refine ⟨last, ?_, hlast, Graph.visit_cons root roots t ▸ hinv'⟩
    rw [List.foldlM_cons, hexplore]
    exact hrest

/-- When nothing is under examination, every discovered node is in the order. -/
theorem mem_order_iff (h : Invariant graph s t) (hframes : s.frames = []) {n : Nat} :
    n ∈ s.order ↔ n ∈ t.discovered := by
  refine ⟨h.tracks.order_subset n, fun hn => ?_⟩
  by_contra hplaced
  obtain ⟨p, hp, -⟩ := h.lowlinks.covered n ((h.tracks.mem_stack n).2 ⟨hn, hplaced⟩)
  simp [hframes] at hp

end Invariant

end Search

namespace Graph

variable {graph : Graph}

theorem mem_discovered_traversal_iff (hclosed : graph.Closed) {n : Nat} :
    n ∈ graph.traversal.discovered ↔ n < graph.size := by
  constructor
  · intro hn
    rcases reaches_of_mem_visit _ _ n hn with hn | ⟨u, hu, hreach⟩
    · cases hn
    · exact hreach.mem_of_closed (· < graph.size) (fun _ v _ hedge => hclosed _ v hedge)
        (List.mem_range.1 hu)
  · exact fun hn => (graph.discovered_visit _ _).2 n (List.mem_range.2 hn)

theorem nodup_discovered_traversal : graph.traversal.discovered.Nodup := nodup_visit _ _ .nil

theorem finished_traversal_subset : graph.traversal.finished ⊆ graph.traversal.discovered :=
  finished_visit_subset _ _ (by simp)

/-- What a search of a whole graph comes to. -/
structure Solved (graph : Graph) (s : Search) : Prop where
  order : s.order.toList = graph.componentOrder graph.traversal
  cyclic : s.cyclic.toList = s.order.toList.filter (graph.OnCycle ·)
  perm : s.order.toList.Perm (List.range graph.size)
  settled : s.order.toList.Pairwise fun u v => graph.Reaches u v → graph.Reaches v u
  contiguous : ∀ u ∈ s.order.toList, ∃ before members after,
    s.order.toList = before ++ members ++ after ∧ ∀ v, v ∈ members ↔ graph.Mutual u v

/-- The search meets no fault. -/
theorem search_eq_ok (hclosed : graph.Closed) : ∃ s, graph.search = .ok s ∧ graph.Solved s := by
  obtain ⟨s, hsearch, hframes, h⟩ := Search.Invariant.foldlM_explore_eq_ok hclosed
    (List.range graph.size) {} {} .start rfl fun _ => List.mem_range.1
  refine ⟨s, hsearch, h.placement.order, h.placement.cyclic, ?_, h.placement.settled, ?_⟩
  · rw [List.perm_ext_iff_of_nodup h.tracks.order_nodup List.nodup_range]
    intro n
    rw [Array.mem_toList_iff, h.mem_order_iff hframes, List.mem_range]
    exact mem_discovered_traversal_iff hclosed
  · intro u hu
    have horder : s.order.toList = graph.componentOrder graph.traversal := h.placement.order
    rw [horder] at hu ⊢
    refine exists_component_infix (fun v w hv hreach => ?_) hu
    rw [mem_discovered_traversal_iff hclosed] at hv ⊢
    exact hreach.mem_of_closed (· < graph.size) (fun _ w _ => hclosed _ w) hv

end Graph

end FuzzyHierarchy
