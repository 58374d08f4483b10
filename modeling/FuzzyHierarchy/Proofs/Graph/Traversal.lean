import FuzzyHierarchy.Proofs.Graph.Reachability
import Mathlib.Data.Finset.Card
import Mathlib.Data.Finset.Range
import Mathlib.Data.List.Perm.Subperm

/-
Plain recursive depth-first search, which records the nodes in the order of their discovery and in
the order in which they are finished.

Main statements: the nodes discovered from one node on are those that it reaches, so reachability
can be decided; every node of the graph is discovered once.
-/

namespace FuzzyHierarchy

/-- The values of a list that a sublist without repeats consists of, in the order of the list. -/
theorem filter_eq_of_sublist {values part : List Nat} {p : Nat → Prop} [DecidablePred p]
    (hsublist : part.Sublist values) (hnodup : values.Nodup) (hmem : ∀ n, p n ↔ n ∈ part) :
    values.filter (p ·) = part := by
  have hself : part.filter (p ·) = part := List.filter_eq_self.2 (by simp [hmem])
  have hle : part.Sublist (values.filter (p ·)) := hself ▸ hsublist.filter _
  refine (hle.eq_of_length_le ?_).symm
  refine ((hnodup.filter _).subperm fun n hn => ?_).length_le
  simpa [hmem] using (List.mem_filter.1 hn).2

/-- What a depth-first search has done so far. -/
structure Traversal where
  /-- The nodes in the order of their discovery. -/
  discovered : List Nat := []
  /-- The nodes whose successors are all examined, in the order in which that was so. -/
  finished : List Nat := []
  deriving DecidableEq, Repr

namespace Traversal

def discover (t : Traversal) (node : Nat) : Traversal :=
  { t with discovered := t.discovered ++ [node] }

def finish (t : Traversal) (node : Nat) : Traversal :=
  { t with finished := t.finished ++ [node] }

@[simp] theorem discovered_discover (t : Traversal) (node : Nat) :
    (t.discover node).discovered = t.discovered ++ [node] := rfl

@[simp] theorem finished_discover (t : Traversal) (node : Nat) :
    (t.discover node).finished = t.finished := rfl

@[simp] theorem discovered_finish (t : Traversal) (node : Nat) :
    (t.finish node).discovered = t.discovered := rfl

@[simp] theorem finished_finish (t : Traversal) (node : Nat) :
    (t.finish node).finished = t.finished ++ [node] := rfl

/-- The number of nodes of the graph that are still to be discovered. -/
def remaining (graph : Graph) (t : Traversal) : Nat :=
  (Finset.range graph.size \ t.discovered.toFinset).card

theorem remaining_discover_le (graph : Graph) (t : Traversal) (node : Nat) :
    (t.discover node).remaining graph ≤ t.remaining graph := by
  apply Finset.card_le_card
  intro u
  simp +contextual

theorem remaining_discover_lt {graph : Graph} {t : Traversal} {node : Nat} (hlt : node < graph.size)
    (hnew : node ∉ t.discovered) : (t.discover node).remaining graph < t.remaining graph := by
  apply Finset.card_lt_card
  rw [Finset.ssubset_iff_of_subset (by intro u; simp +contextual)]
  exact ⟨node, by simp [hlt, hnew], by simp⟩

end Traversal

namespace Graph

/-- `visit`, with the bound by which it ends: no node is forgotten once it is discovered. -/
def visitBounded (graph : Graph) (nodes : List Nat) (t : Traversal) :
    { later : Traversal // later.remaining graph ≤ t.remaining graph } :=
  match nodes with
  | [] => ⟨t, Nat.le_refl _⟩
  | node :: others =>
    if _ : node ∈ t.discovered then
      graph.visitBounded others t
    else
      have hle := t.remaining_discover_le graph node
      let below := graph.visitBounded (graph.next node) (t.discover node)
      let after := graph.visitBounded others (below.1.finish node)
      ⟨after.1, Nat.le_trans after.2 (Nat.le_trans below.2 hle)⟩
termination_by (t.remaining graph, nodes.length)
decreasing_by
  · exact Prod.Lex.right _ (Nat.lt_succ_self _)
  · -- a node outside the graph has no successors to visit
    rcases Nat.lt_or_ge node graph.size with hlt | hge
    · exact Prod.Lex.left _ _ (Traversal.remaining_discover_lt hlt (by assumption))
    · rw [next_eq_nil hge]
      exact Prod.Lex.right' _ hle (Nat.succ_pos _)
  · exact Prod.Lex.right' _ (Nat.le_trans below.2 hle) (Nat.lt_succ_self _)

/-- Depth-first search from the nodes of a list in turn: a node that is new is discovered, its
successors are visited in their order, and it is finished. -/
def visit (graph : Graph) (nodes : List Nat) (t : Traversal) : Traversal :=
  (graph.visitBounded nodes t).1

/-- Depth-first search of the whole graph, with its nodes as roots in increasing order. -/
def traversal (graph : Graph) : Traversal := graph.visit (List.range graph.size) {}

variable {graph : Graph} {t : Traversal} {node u v : Nat} {nodes : List Nat}

@[simp] theorem visit_nil : graph.visit [] t = t := by
  rw [visit, visitBounded]

theorem visit_cons_of_mem (h : node ∈ t.discovered) :
    graph.visit (node :: nodes) t = graph.visit nodes t := by
  rw [visit, visitBounded, dif_pos h, visit]

theorem visit_cons_of_not_mem (h : node ∉ t.discovered) :
    graph.visit (node :: nodes) t =
      graph.visit nodes ((graph.visit (graph.next node) (t.discover node)).finish node) := by
  rw [visit, visitBounded, dif_neg h, visit, visit]

theorem visit_cons (node : Nat) (nodes : List Nat) (t : Traversal) :
    graph.visit (node :: nodes) t = graph.visit nodes (graph.visit [node] t) := by
  by_cases h : node ∈ t.discovered
  · rw [visit_cons_of_mem h, visit_cons_of_mem h, visit_nil]
  · rw [visit_cons_of_not_mem h, visit_cons_of_not_mem h, visit_nil]

theorem visit_append (nodes later : List Nat) (t : Traversal) :
    graph.visit (nodes ++ later) t = graph.visit later (graph.visit nodes t) := by
  induction nodes generalizing t with
  | nil => rw [visit_nil, List.nil_append]
  | cons node nodes ih => rw [List.cons_append, visit_cons, ih, visit_cons node nodes]

/-- A search from discovered nodes does nothing. -/
theorem visit_of_subset (h : nodes ⊆ t.discovered) : graph.visit nodes t = t := by
  induction nodes with
  | nil => exact visit_nil
  | cons node nodes ih =>
    obtain ⟨hnode, hnodes⟩ := List.cons_subset.1 h
    rw [visit_cons_of_mem hnode, ih hnodes]

/-- What holds of a search holds of it by its recursion. -/
theorem visit_induction (graph : Graph) {motive : List Nat → Traversal → Traversal → Prop}
    (nil : ∀ t, motive [] t t)
    (seen : ∀ node nodes t, node ∈ t.discovered → motive nodes t (graph.visit nodes t) →
      motive (node :: nodes) t (graph.visit nodes t))
    (new : ∀ node nodes t, node ∉ t.discovered →
      let below := graph.visit (graph.next node) (t.discover node)
      let after := graph.visit nodes (below.finish node)
      motive (graph.next node) (t.discover node) below → motive nodes (below.finish node) after →
      motive (node :: nodes) t after)
    (nodes : List Nat) (t : Traversal) : motive nodes t (graph.visit nodes t) := by
  induction nodes, t using visitBounded.induct graph with
  | case1 t => rw [visit_nil]; exact nil t
  | case2 t node others hmem ih => rw [visit_cons_of_mem hmem]; exact seen _ _ _ hmem ih
  | case3 t node others hnew _ below ihbelow ihafter =>
    rw [visit_cons_of_not_mem hnew]
    exact new _ _ _ hnew ihbelow ihafter

/-! ## What is discovered -/

/-- A search only adds to the discovered nodes, and it discovers the nodes of its list. -/
theorem discovered_visit (graph : Graph) (nodes : List Nat) (t : Traversal) :
    t.discovered <+: (graph.visit nodes t).discovered ∧
      ∀ u ∈ nodes, u ∈ (graph.visit nodes t).discovered := by
  induction nodes, t using visit_induction graph with
  | nil t => exact ⟨List.prefix_rfl, by simp⟩
  | seen node nodes t hmem ih =>
    refine ⟨ih.1, fun u hu => ?_⟩
    rcases List.mem_cons.1 hu with rfl | hu
    · exact ih.1.subset hmem
    · exact ih.2 u hu
  | new node nodes t hnew below after hbelow hafter =>
    have hprefix := hbelow.1.trans hafter.1
    refine ⟨(List.prefix_append _ _).trans hprefix, fun u hu => ?_⟩
    rcases List.mem_cons.1 hu with rfl | hu
    · exact hprefix.subset (by simp)
    · exact hafter.2 u hu

theorem reaches_of_mem_visit (nodes : List Nat) (t : Traversal) :
    ∀ v ∈ (graph.visit nodes t).discovered,
      v ∈ t.discovered ∨ ∃ u ∈ nodes, graph.Reaches u v := by
  induction nodes, t using visit_induction graph with
  | nil t => exact fun v hv => .inl hv
  | seen node nodes t hmem ih =>
    intro v hv
    refine (ih v hv).imp_right fun ⟨u, hu, hreach⟩ => ⟨u, List.mem_cons_of_mem _ hu, hreach⟩
  | new node nodes t hnew below after hbelow hafter =>
    intro v hv
    rcases hafter v hv with hv | ⟨u, hu, hreach⟩
    · rcases hbelow v hv with hv | ⟨u, hu, hreach⟩
      · rcases List.mem_append.1 hv with hv | hv
        · exact .inl hv
        · cases List.mem_singleton.1 hv
          exact .inr ⟨node, List.mem_cons_self, .refl node⟩
      · exact .inr ⟨node, List.mem_cons_self, Reaches.trans (Edge.reaches hu) hreach⟩
    · exact .inr ⟨u, List.mem_cons_of_mem _ hu, hreach⟩

/-- A search discovers the successors of every node that it discovers. -/
theorem closed_visit (nodes : List Nat) (t : Traversal) :
    ∀ u ∈ (graph.visit nodes t).discovered,
      u ∈ t.discovered ∨ ∀ v, graph.Edge u v → v ∈ (graph.visit nodes t).discovered := by
  induction nodes, t using visit_induction graph with
  | nil t => exact fun u hu => .inl hu
  | seen node nodes t hmem ih => exact ih
  | new node nodes t hnew below after hbelow hafter =>
    intro u hu
    have hgrow := (graph.discovered_visit nodes
      ((graph.visit (graph.next node) (t.discover node)).finish node)).1.subset
    rcases hafter u hu with hu | hnext
    · rcases hbelow u hu with hu | hnext
      · rcases List.mem_append.1 hu with hu | hu
        · exact .inl hu
        · cases List.mem_singleton.1 hu
          exact .inr fun v hedge => hgrow ((graph.discovered_visit _ _).2 v hedge)
      · exact .inr fun v hedge => hgrow (hnext v hedge)
    · exact .inr hnext

theorem nodup_visit (nodes : List Nat) (t : Traversal) :
    t.discovered.Nodup → (graph.visit nodes t).discovered.Nodup := by
  induction nodes, t using visit_induction graph with
  | nil t => exact id
  | seen node nodes t hmem ih => exact ih
  | new node nodes t hnew below after hbelow hafter =>
    exact fun h => hafter (hbelow (List.nodup_append.2 ⟨h, by simp, by grind⟩))

theorem finished_visit_subset (nodes : List Nat) (t : Traversal) :
    (∀ u ∈ t.finished, u ∈ t.discovered) →
      ∀ u ∈ (graph.visit nodes t).finished, u ∈ (graph.visit nodes t).discovered := by
  induction nodes, t using visit_induction graph with
  | nil t => exact id
  | seen node nodes t hmem ih => exact ih
  | new node nodes t hnew below after hbelow hafter =>
    intro h
    have hgrow := (graph.discovered_visit (graph.next node) (t.discover node)).1.subset
    refine hafter fun u hu => ?_
    rcases List.mem_append.1 hu with hu | hu
    · exact hbelow (fun v hv => List.mem_append_left _ (h v hv)) u hu
    · exact hgrow (List.mem_append_right _ hu)

/-- The nodes discovered from a node are those that it reaches. -/
theorem mem_visit_singleton_iff :
    v ∈ (graph.visit [u] {}).discovered ↔ graph.Reaches u v := by
  constructor
  · intro hv
    rcases reaches_of_mem_visit [u] {} v hv with hv | ⟨w, hw, hreach⟩
    · cases hv
    · cases List.mem_singleton.1 hw
      exact hreach
  · -- the discovered nodes are closed under edges
    intro hreach
    refine hreach.mem_of_closed (· ∈ (graph.visit [u] {}).discovered) ?_
      ((graph.discovered_visit _ _).2 u (List.mem_singleton_self u))
    intro a b ha hedge
    rcases closed_visit [u] {} a ha with ha | hnext
    · cases ha
    · exact hnext b hedge

instance (graph : Graph) (u v : Nat) : Decidable (graph.Reaches u v) :=
  decidable_of_iff _ mem_visit_singleton_iff

instance (graph : Graph) (u v : Nat) : Decidable (graph.Mutual u v) :=
  inferInstanceAs (Decidable (_ ∧ _))

instance (graph : Graph) (u : Nat) : Decidable (graph.OnCycle u) :=
  decidable_of_iff (∃ v ∈ graph.next u, graph.Reaches v u)
    onCycle_iff.symm

/-! ## Components in the order of a search -/

/-- The discovered nodes of the component of `node`, in the order of their discovery. -/
def component (graph : Graph) (t : Traversal) (node : Nat) : List Nat :=
  t.discovered.filter (graph.Mutual node ·)

/-- The components in the order in which their first-discovered nodes are finished, each in the
order of discovery. -/
def componentOrder (graph : Graph) (t : Traversal) : List Nat :=
  t.finished.flatMap fun node =>
    if (graph.component t node).head? = some node then graph.component t node else []

theorem mem_component_iff : v ∈ graph.component t u ↔ v ∈ t.discovered ∧ graph.Mutual u v := by
  simp [component]

/-- Without cycles every component is a single node, and their order is that of finishing. -/
theorem componentOrder_eq_finished (hnodup : t.discovered.Nodup)
    (hfinished : t.finished ⊆ t.discovered) (hacyclic : ∀ n, ¬ graph.OnCycle n) :
    graph.componentOrder t = t.finished := by
  have hcomponent : ∀ n ∈ t.finished, graph.component t n = [n] := by
    intro n hn
    refine filter_eq_of_sublist (List.singleton_sublist.2 (hfinished hn)) hnodup fun m => ?_
    rw [List.mem_singleton]
    constructor
    · intro hmutual
      by_contra hne
      exact hacyclic n (hmutual.onCycle (Ne.symm hne))
    · rintro rfl
      exact .refl m
  rw [componentOrder, List.flatMap_def]
  have hblocks : t.finished.map (fun n =>
      if (graph.component t n).head? = some n then graph.component t n else []) =
      t.finished.map fun n => [n] :=
    List.map_congr_left fun n hn => by simp [hcomponent n hn]
  rw [hblocks, ← List.flatMap_def, List.flatMap_singleton']

/-- A component of which a node stands in the order stands there in one piece. -/
theorem exists_component_infix
    (hclosed : ∀ v w, v ∈ t.discovered → graph.Reaches v w → w ∈ t.discovered)
    (hu : u ∈ graph.componentOrder t) :
    ∃ before members after, graph.componentOrder t = before ++ members ++ after ∧
      ∀ v, v ∈ members ↔ graph.Mutual u v := by
  obtain ⟨n, hn, hu⟩ := List.mem_flatMap.1 hu
  obtain ⟨earlier, later, hsplit⟩ := List.append_of_mem hn
  split at hu
  · rename_i hhead
    obtain ⟨hdisc, hmutual⟩ := mem_component_iff.1 hu
    refine ⟨graph.componentOrder { t with finished := earlier }, graph.component t n,
      graph.componentOrder { t with finished := later }, ?_, fun v => ?_⟩
    · rw [componentOrder, hsplit, List.flatMap_append, List.flatMap_cons, if_pos hhead,
        ← List.append_assoc]
      rfl
    · rw [mem_component_iff, hmutual.congr]
      exact and_iff_right_of_imp fun hv => hclosed u v hdisc hv.1
  · cases hu

end Graph

end FuzzyHierarchy
