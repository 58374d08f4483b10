import FuzzyHierarchy.Proofs.Graph.Transition
import Mathlib.Data.List.Chain

/-
What the fields of a search state have to do with each other and with the traversal so far, leaving
the lowlinks aside: the index of a node is its place in the order of discovery, the stack holds the
discovered nodes that are not in the order yet, the last discovered first, and the frames are a path
of nodes on the stack.

Main statements: in such a state a step meets no fault, and it leads to such a state again.
-/

namespace FuzzyHierarchy

namespace Graph

/-- The edge from `u` to `v` is one of those that are examined while `frames` are open. -/
def Examined (graph : Graph) (frames : List Frame) (u v : Nat) : Prop :=
  graph.Edge u v ∧
    ∀ frame ∈ frames, frame.node = u → ∃ seen, seen ++ frame.unexamined = graph.next u ∧ v ∈ seen

variable {graph : Graph} {frames outer : List Frame} {node successor u v : Nat} {later : List Nat}

theorem Examined.of_subset (h : graph.Examined frames u v) (hsubset : outer ⊆ frames) :
    graph.Examined outer u v :=
  ⟨h.1, fun frame hframe => h.2 frame (hsubset hframe)⟩

/-- Examining one successor adds the edge to it. -/
theorem Examined.of_advance (h : graph.Examined (⟨node, later⟩ :: outer) u v)
    (hsuffix : successor :: later <:+ graph.next node) :
    graph.Examined (⟨node, successor :: later⟩ :: outer) u v ∨ (u = node ∧ v = successor) := by
  by_cases hu : node = u
  · obtain ⟨seen, hseen⟩ := hsuffix
    obtain ⟨seen', hseen', hv⟩ := h.2 ⟨node, later⟩ List.mem_cons_self hu
    have heq : seen' = seen ++ [successor] := by
      rw [← hu, ← hseen, List.append_cons] at hseen'
      exact List.append_cancel_right hseen'
    rw [heq, List.mem_append, List.mem_singleton] at hv
    refine hv.imp (fun hv => ⟨h.1, fun frame hframe hnode => ?_⟩) fun hv => ⟨hu.symm, hv⟩
    rcases List.mem_cons.1 hframe with rfl | hframe
    · exact ⟨seen, by rw [← hu, ← hseen], hv⟩
    · exact h.2 frame (List.mem_cons_of_mem _ hframe) hnode
  · refine .inl ⟨h.1, fun frame hframe hnode => ?_⟩
    rcases List.mem_cons.1 hframe with rfl | hframe
    · exact absurd hnode hu
    · exact h.2 frame (List.mem_cons_of_mem _ hframe) hnode

theorem Examined.of_open (h : graph.Examined (⟨node, graph.next node⟩ :: frames) u v) :
    u ≠ node ∧ graph.Examined frames u v := by
  refine ⟨fun hu => ?_, h.of_subset (List.subset_cons_self _ _)⟩
  obtain ⟨seen, hseen, hv⟩ := h.2 ⟨node, graph.next node⟩ List.mem_cons_self hu.symm
  have hnil : seen = [] := by simpa [hu] using hseen
  rw [hnil] at hv
  cases hv

theorem Examined.of_close (h : graph.Examined outer u v) :
    graph.Examined (⟨node, []⟩ :: outer) u v := by
  refine ⟨h.1, fun frame hframe hnode => ?_⟩
  rcases List.mem_cons.1 hframe with rfl | hframe
  · exact ⟨graph.next u, List.append_nil _, h.1⟩
  · exact h.2 frame hframe hnode

end Graph

/-- What follows a value in a list follows it in a longer one that has the value once. -/
theorem sublist_of_cons_sublist_append {root : Nat} {nodes rest : List Nat} :
    ∀ {upper : List Nat}, root ∉ upper → (root :: nodes).Sublist (upper ++ root :: rest) →
      nodes.Sublist rest
  | [], _, h => List.cons_sublist_cons.1 h
  | u :: upper, hnot, h => by
    rw [List.mem_cons, not_or] at hnot
    exact sublist_of_cons_sublist_append hnot.2 (h.of_cons_of_ne hnot.1)

namespace Search

/-- The search state `s` belongs to the traversal `t`. -/
structure Tracks (graph : Graph) (s : Search) (t : Traversal) : Prop where
  nextIndex : s.nextIndex = t.discovered.length
  index : ∀ n i : Nat, s.index[n]? = some i ↔ t.discovered[i]? = some n
  lowlink : ∀ n ∈ t.discovered, s.lowlink.contains n = true
  inGraph : ∀ n ∈ t.discovered, n < graph.size
  stack : s.stack.reverse.Sublist t.discovered
  mem_stack : ∀ n, n ∈ s.stack ↔ n ∈ t.discovered ∧ n ∉ s.order
  onStack : ∀ n, s.onStack.contains n = true ↔ n ∈ s.stack
  frames : (s.frames.map Frame.node).Sublist s.stack
  path : (s.frames.map Frame.node).IsChain fun inner outer => graph.Edge outer inner
  unexamined : ∀ frame ∈ s.frames, frame.unexamined <:+ graph.next frame.node
  examined : ∀ u ∈ t.discovered, ∀ v, graph.Examined s.frames u v → v ∈ t.discovered
  finished : ∀ n, n ∈ t.finished ↔ n ∈ t.discovered ∧ n ∉ s.frames.map Frame.node
  order_nodup : s.order.toList.Nodup
  order_subset : ∀ n ∈ s.order, n ∈ t.discovered

namespace Tracks

variable {graph : Graph} {s : Search} {t : Traversal} {n m : Nat}

theorem start : Tracks graph {} {} where
  nextIndex := rfl
  index n i := by simp
  lowlink n hn := by cases hn
  inGraph n hn := by cases hn
  stack := .slnil
  mem_stack n := by simp
  onStack n := by simp
  frames := .slnil
  path := .nil
  unexamined frame hframe := by cases hframe
  examined u hu := by cases hu
  finished n := by simp
  order_nodup := .nil
  order_subset n hn := by simp at hn

/-! ## Consequences -/

theorem index_contains (h : Tracks graph s t) : s.index.contains n = true ↔ n ∈ t.discovered := by
  rw [Std.TreeMap.contains_eq_isSome_getElem?, Option.isSome_iff_exists, List.mem_iff_getElem?]
  exact exists_congr fun i => h.index n i

theorem rank_eq_iff (h : Tracks graph s t) (hn : n ∈ t.discovered) {i : Nat} :
    s.rank n = i ↔ t.discovered[i]? = some n := by
  obtain ⟨j, hj⟩ := List.mem_iff_getElem?.1 hn
  have hindex := (h.index n j).2 hj
  rw [← h.index n i, rank, hindex]
  simp

theorem getElem?_rank (h : Tracks graph s t) (hn : n ∈ t.discovered) :
    t.discovered[s.rank n]? = some n := (h.rank_eq_iff hn).1 rfl

theorem discovered_nodup (h : Tracks graph s t) : t.discovered.Nodup := by
  rw [List.nodup_iff_getElem?_ne_getElem?]
  intro i j hij hj heq
  have hi : i < t.discovered.length := hij.trans hj
  have hindexi := (h.index t.discovered[i] i).2 (List.getElem?_eq_getElem hi)
  have hindexj := (h.index t.discovered[i] j).2 (by rw [← heq, List.getElem?_eq_getElem hi])
  rw [hindexi] at hindexj
  cases hindexj
  exact Nat.lt_irrefl i hij

theorem rank_lt (h : Tracks graph s t) (hn : n ∈ t.discovered) : s.rank n < s.nextIndex := by
  rw [h.nextIndex]
  exact (List.getElem?_eq_some_iff.1 (h.getElem?_rank hn)).1

theorem rank_inj (h : Tracks graph s t) (hn : n ∈ t.discovered) (hm : m ∈ t.discovered) :
    s.rank n = s.rank m ↔ n = m := by
  rw [h.rank_eq_iff hn, h.getElem?_rank hm]
  simp [eq_comm]

/-- The order of discovery is that of the indices. -/
theorem pairwise_rank (h : Tracks graph s t) :
    t.discovered.Pairwise fun a b => s.rank a < s.rank b := by
  rw [List.pairwise_iff_getElem]
  intro i j hi hj hij
  rw [(h.rank_eq_iff (List.getElem_mem hi)).2 (List.getElem?_eq_getElem hi),
    (h.rank_eq_iff (List.getElem_mem hj)).2 (List.getElem?_eq_getElem hj)]
  exact hij

theorem pairwise_stack (h : Tracks graph s t) :
    s.stack.Pairwise fun a b => s.rank b < s.rank a :=
  List.pairwise_reverse.1 (h.pairwise_rank.sublist h.stack)

theorem stack_nodup (h : Tracks graph s t) : s.stack.Nodup :=
  h.pairwise_stack.imp fun hlt heq => by simp [heq] at hlt

theorem stack_subset (h : Tracks graph s t) (hn : n ∈ s.stack) : n ∈ t.discovered :=
  ((h.mem_stack n).1 hn).1

theorem frame_on_stack (h : Tracks graph s t) {frame : Frame} (hframe : frame ∈ s.frames) :
    frame.node ∈ s.stack := h.frames.subset (List.mem_map_of_mem hframe)

theorem frame_discovered (h : Tracks graph s t) {frame : Frame} (hframe : frame ∈ s.frames) :
    frame.node ∈ t.discovered := h.stack_subset (h.frame_on_stack hframe)

theorem pairwise_frames (h : Tracks graph s t) :
    (s.frames.map Frame.node).Pairwise fun a b => s.rank b < s.rank a :=
  h.pairwise_stack.sublist h.frames

theorem rank_lt_innermost (h : Tracks graph s t) {inner : Nat} {nodes : List Nat}
    (hnodes : s.frames.map Frame.node = inner :: nodes) : ∀ p ∈ nodes, s.rank p < s.rank inner := by
  have hsorted := h.pairwise_frames
  rw [hnodes, List.pairwise_cons] at hsorted
  exact hsorted.1

theorem map_node_of_cons {unexamined : List Nat} {outer : List Frame}
    (hframes : s.frames = ⟨n, unexamined⟩ :: outer) :
    s.frames.map Frame.node = n :: outer.map Frame.node := by
  rw [hframes]
  rfl

theorem innermost_on_stack (h : Tracks graph s t) {unexamined : List Nat} {outer : List Frame}
    (hframes : s.frames = ⟨n, unexamined⟩ :: outer) : n ∈ s.stack :=
  h.frames.subset (map_node_of_cons hframes ▸ List.mem_cons_self)

theorem unexamined_innermost (h : Tracks graph s t) {unexamined : List Nat} {outer : List Frame}
    (hframes : s.frames = ⟨n, unexamined⟩ :: outer) : unexamined <:+ graph.next n :=
  h.unexamined _ (hframes ▸ List.mem_cons_self)

theorem edge_innermost (h : Tracks graph s t) {successor : Nat} {later : List Nat}
    {outer : List Frame} (hframes : s.frames = ⟨n, successor :: later⟩ :: outer) :
    graph.Edge n successor :=
  (h.unexamined_innermost hframes).subset List.mem_cons_self

/-! ## A step -/

theorem not_mem_upper (h : Tracks graph s t) {upper rest : List Nat}
    (hstack : s.stack = upper ++ n :: rest) : n ∉ upper := by
  intro hmem
  have hnodup := h.stack_nodup
  rw [hstack] at hnodup
  exact (List.nodup_append.1 hnodup).2.2 n hmem n List.mem_cons_self rfl

/-- Below a node, the stack holds what was discovered before it. -/
theorem mem_rest_iff (h : Tracks graph s t) {upper rest : List Nat}
    (hstack : s.stack = upper ++ n :: rest) : m ∈ rest ↔ m ∈ s.stack ∧ s.rank m < s.rank n := by
  have hsorted := h.pairwise_stack
  rw [hstack, List.pairwise_append, List.pairwise_cons] at hsorted
  obtain ⟨-, ⟨hbelow, -⟩, habove⟩ := hsorted
  rw [hstack, List.mem_append, List.mem_cons]
  constructor
  · exact fun hm => ⟨.inr (.inr hm), hbelow m hm⟩
  · rintro ⟨hm | rfl | hm, hlt⟩
    · exact absurd hlt (Nat.lt_asymm (habove m hm n List.mem_cons_self))
    · exact absurd hlt (Nat.lt_irrefl _)
    · exact hm

/-- Down to a node, the stack holds the node and what was discovered after it. -/
theorem mem_upper_iff (h : Tracks graph s t) {upper rest : List Nat}
    (hstack : s.stack = upper ++ n :: rest) :
    m ∈ n :: upper.reverse ↔ m ∈ s.stack ∧ s.rank n ≤ s.rank m := by
  have hrest := h.mem_rest_iff hstack (m := m)
  have hsplit : m ∈ s.stack ↔ m ∈ n :: upper.reverse ∨ m ∈ rest := by
    rw [hstack]
    simp only [List.mem_append, List.mem_cons, List.mem_reverse]
    tauto
  have hdisjoint : m ∈ n :: upper.reverse → m ∉ rest := by
    have hnodup := h.stack_nodup
    rw [hstack] at hnodup
    grind
  rw [← Nat.not_lt]
  tauto

/-- A step meets no fault, and is one of the moves. -/
theorem step_eq_ok (h : Tracks graph s t) (hclosed : graph.Closed) (hne : s.frames ≠ []) :
    ∃ s' t', s.step graph = .ok s' ∧ Move graph s t s' t' := by
  obtain ⟨⟨node, unexamined⟩, outer, hframes⟩ := List.exists_cons_of_ne_nil hne
  have hnode : node ∈ s.stack := h.innermost_on_stack hframes
  have hdisc : node ∈ t.discovered := h.stack_subset hnode
  cases unexamined with
  | cons successor later =>
    have hstep : s.step graph =
        ({ s with frames := ⟨node, later⟩ :: outer } : Search).examine graph node successor := by
      simp only [step, hframes]
    rw [hstep]
    by_cases hnew : successor ∈ t.discovered
    · have hindex : s.index.contains successor = true := h.index_contains.2 hnew
      by_cases hstack : successor ∈ s.stack
      · exact ⟨_, t, examine_onStack hindex ((h.onStack successor).2 hstack) (h.lowlink node hdisc),
          .tighten hframes hstack⟩
      · -- a discovered node that is not on the stack is in the order
        refine ⟨_, t, examine_placed hindex (mt (h.onStack successor).1 hstack), .skip hframes ?_⟩
        by_contra hplaced
        exact hstack ((h.mem_stack successor).2 ⟨hnew, hplaced⟩)
    · have hindex : s.index.contains successor = false := by
        rw [Bool.eq_false_iff, ne_eq, h.index_contains]
        exact hnew
      exact ⟨_, _, examine_new hindex (hclosed _ _ (h.edge_innermost hframes)),
        .descend hframes hnew⟩
  | nil =>
    have hstep : s.step graph = ({ s with frames := outer } : Search).retire graph node := by
      simp only [step, hframes]
    have houter : ∀ frame ∈ outer, s.lowlink.contains frame.node = true := fun frame hframe =>
      h.lowlink _ (h.frame_discovered (by simp [hframes, hframe]))
    have hretire := retire_eq graph (s := { s with frames := outer })
      (h.index_contains.2 hdisc) (h.lowlink node hdisc) houter
    by_cases hlow : s.low node = s.rank node
    · obtain ⟨upper, rest, hsplit⟩ := List.append_of_mem hnode
      have hplaced := completeComponent_eq_placed
        (s := ({ s with frames := outer } : Search).innermostLowered (s.low node)) hsplit
        (h.not_mem_upper hsplit) (h.inGraph node hdisc)
      exact ⟨_, _, hstep.trans (hretire.trans ((if_pos hlow).trans hplaced)),
        .complete hframes hlow hsplit⟩
    · exact ⟨_, _, hstep.trans (hretire.trans (if_neg hlow)), .retreat hframes hlow⟩

/-! ## Every move keeps the books -/

section Advance

variable {node successor : Nat} {later : List Nat} {outer : List Frame} (h : Tracks graph s t)
  (hframes : s.frames = ⟨node, successor :: later⟩ :: outer)

include h hframes

theorem unexamined_advance :
    ∀ frame ∈ (⟨node, later⟩ :: outer : List Frame),
      frame.unexamined <:+ graph.next frame.node := by
  intro frame hframe
  rcases List.mem_cons.1 hframe with rfl | hframe
  · exact (List.suffix_cons _ _).trans (h.unexamined_innermost hframes)
  · exact h.unexamined frame (by simp [hframes, hframe])

theorem examined_advance {u v : Nat} (hu : u ∈ t.discovered)
    (hex : graph.Examined (⟨node, later⟩ :: outer) u v) : v ∈ t.discovered ∨ v = successor := by
  rcases hex.of_advance (h.unexamined_innermost hframes) with hex | ⟨-, rfl⟩
  · exact .inl (h.examined u hu v (hframes ▸ hex))
  · exact .inr rfl

/-- Examining a successor that is known already. -/
theorem advance (hseen : successor ∈ t.discovered) :
    Tracks graph { s with frames := ⟨node, later⟩ :: outer } t :=
  have hnodes : s.frames.map Frame.node = (⟨node, later⟩ :: outer : List Frame).map Frame.node :=
    map_node_of_cons hframes
  { h with
    frames := hnodes ▸ h.frames
    path := hnodes ▸ h.path
    finished := hnodes ▸ h.finished
    unexamined := h.unexamined_advance hframes
    examined := fun _ hu _ hex =>
      (h.examined_advance hframes hu hex).elim id fun heq => heq ▸ hseen }

end Advance

/-- Discovering a node, after the frames have been brought up to date. -/
theorem opened (h : Tracks graph s t) {node : Nat} {frames : List Frame}
    (hnodes : frames.map Frame.node = s.frames.map Frame.node)
    (hunexamined : ∀ frame ∈ frames, frame.unexamined <:+ graph.next frame.node)
    (hexamined : ∀ u ∈ t.discovered, ∀ v, graph.Examined frames u v → v ∈ t.discovered ∨ v = node)
    (hedge : ∀ inner ∈ (frames.map Frame.node).head?, graph.Edge inner node)
    (hnew : node ∉ t.discovered) (hlt : node < graph.size) :
    Tracks graph (({ s with frames } : Search).opened graph node) (t.discover node) := by
  have hplaced : node ∉ s.order := fun hmem => hnew (h.order_subset node hmem)
  refine {
    nextIndex := ?nextIndex, index := ?index, lowlink := ?lowlink, inGraph := ?inGraph
    stack := ?stack, mem_stack := ?mem_stack, onStack := ?onStack, frames := ?frames
    path := ?path, unexamined := ?unexamined, examined := ?examined, finished := ?finished
    order_nodup := h.order_nodup
    order_subset := fun n hn => List.mem_append_left _ (h.order_subset n hn) }
  case nextIndex => simp [Search.opened, h.nextIndex]
  case index =>
    intro n i
    simp only [Search.opened, Std.TreeMap.getElem?_insert, Nat.compare_eq_eq, h.nextIndex,
      Traversal.discovered_discover, List.getElem?_append]
    have := h.index n i
    have := List.mem_iff_getElem?.2.mt hnew
    grind
  case lowlink =>
    intro n hn
    simp only [Search.opened, Std.TreeMap.contains_insert, Bool.or_eq_true, beq_iff_eq,
      Nat.compare_eq_eq]
    rcases List.mem_append.1 hn with hn | hn
    · exact .inr (h.lowlink n hn)
    · exact .inl (List.mem_singleton.1 hn).symm
  case inGraph =>
    intro n hn
    rcases List.mem_append.1 hn with hn | hn
    · exact h.inGraph n hn
    · cases List.mem_singleton.1 hn
      exact hlt
  case stack =>
    show (node :: s.stack).reverse.Sublist (t.discovered ++ [node])
    rw [List.reverse_cons]
    exact h.stack.append_right [node]
  case mem_stack =>
    intro n
    show n ∈ node :: s.stack ↔ n ∈ t.discovered ++ [node] ∧ n ∉ s.order
    rw [List.mem_cons, h.mem_stack, List.mem_append, List.mem_singleton]
    grind
  case onStack =>
    intro n
    simp only [Search.opened, Std.TreeSet.contains_insert, Bool.or_eq_true, beq_iff_eq,
      Nat.compare_eq_eq, h.onStack, List.mem_cons, eq_comm (a := node)]
  case frames =>
    show (node :: frames.map Frame.node).Sublist (node :: s.stack)
    rw [hnodes]
    exact h.frames.cons_cons node
  case path =>
    show (node :: frames.map Frame.node).IsChain _
    exact List.isChain_cons.2 ⟨hedge, hnodes ▸ h.path⟩
  case unexamined =>
    intro frame hframe
    rcases List.mem_cons.1 hframe with rfl | hframe
    · exact List.suffix_rfl
    · exact hunexamined frame hframe
  case examined =>
    -- no edge of the new node is examined yet
    intro u hu v hex
    obtain ⟨hne, hex⟩ := Graph.Examined.of_open hex
    rcases List.mem_append.1 hu with hu | hu
    · exact List.mem_append.2 ((hexamined u hu v hex).imp_right List.mem_singleton.2)
    · exact absurd (List.mem_singleton.1 hu) hne
  case finished =>
    intro n
    show n ∈ t.finished ↔ n ∈ t.discovered ++ [node] ∧ n ∉ node :: frames.map Frame.node
    rw [hnodes, h.finished, List.mem_append, List.mem_singleton, List.mem_cons]
    grind

theorem lowered (h : Tracks graph s t) (node bound : Nat) : Tracks graph (s.lowered node bound) t :=
  { h with
    lowlink := fun n hn => by
      simp only [Search.lowered, Std.TreeMap.contains_insert, h.lowlink n hn, Bool.or_true] }

theorem innermostLowered (h : Tracks graph s t) (bound : Nat) :
    Tracks graph (s.innermostLowered bound) t :=
  { h with
    lowlink := fun n hn => by
      unfold Search.innermostLowered
      split
      · exact h.lowlink n hn
      · exact (h.lowered _ bound).lowlink n hn }

/-- Closing the frame of an exhausted node. -/
theorem closed (h : Tracks graph s t) {node : Nat} {outer : List Frame}
    (hframes : s.frames = ⟨node, []⟩ :: outer) :
    Tracks graph { s with frames := outer } (t.finish node) := by
  have hsublist := h.frames
  have hpath := h.path
  have hfinished := h.finished
  have hnotin : node ∉ outer.map Frame.node := by
    have hnodup := h.stack_nodup.sublist h.frames
    rw [hframes] at hnodup
    exact (List.nodup_cons.1 hnodup).1
  have hnode : node ∈ t.discovered := h.stack_subset (h.innermost_on_stack hframes)
  rw [map_node_of_cons hframes] at hsublist hpath hfinished
  refine { h with
    frames := (List.sublist_cons_self _ _).trans hsublist
    path := hpath.tail
    unexamined := fun frame hframe => h.unexamined frame (by simp [hframes, hframe])
    examined := fun u hu v hex => h.examined u hu v (hframes ▸ hex.of_close)
    finished := fun n => ?_ }
  rw [Traversal.finished_finish, Traversal.discovered_finish, List.mem_append, List.mem_singleton,
    hfinished, List.mem_cons]
  grind

/-- Moving a component, the part of the stack down to its root, to the order. -/
theorem placed (h : Tracks graph s t) {root : Nat} {upper rest : List Nat} (onCycle : Bool)
    (hstack : s.stack = upper ++ root :: rest) (hframes : (s.frames.map Frame.node).Sublist rest) :
    Tracks graph (s.placed (root :: upper.reverse) rest onCycle) t := by
  have hnodup := h.stack_nodup
  have hsublist := h.stack
  rw [hstack] at hnodup hsublist
  have hcomponent : (root :: upper.reverse).Nodup := by grind
  have hupper := fun n => h.mem_upper_iff hstack (m := n)
  have hrest := fun n => h.mem_rest_iff hstack (m := n)
  refine { h with
    stack := ?stack, mem_stack := ?mem_stack, onStack := ?onStack, frames := hframes
    order_nodup := ?order_nodup, order_subset := ?order_subset }
  case stack =>
    rw [List.reverse_append, List.reverse_cons, List.append_assoc] at hsublist
    exact (List.sublist_append_left _ _).trans hsublist
  case mem_stack =>
    intro n
    rw [mem_order_placed, hupper]
    show n ∈ rest ↔ _
    rw [hrest, h.mem_stack, ← Nat.not_le]
    tauto
  case onStack =>
    intro n
    rw [Search.placed, contains_foldl_erase, h.onStack, hupper, hrest, ← Nat.not_le]
    tauto
  case order_nodup =>
    rw [order_placed, List.nodup_append]
    refine ⟨h.order_nodup, hcomponent, fun a ha b hb hab => ?_⟩
    have hb := ((hupper b).1 hb).1
    exact ((h.mem_stack b).1 hb).2 (hab ▸ Array.mem_toList_iff.1 ha)
  case order_subset =>
    intro n hn
    rcases (mem_order_placed _ _ _).1 hn with hn | hn
    · exact h.order_subset n hn
    · exact h.stack_subset ((hupper n).1 hn).1

theorem openedRoot (h : Tracks graph s t) {root : Nat} (hframes : s.frames = [])
    (hnew : root ∉ t.discovered) (hlt : root < graph.size) :
    Tracks graph (s.opened graph root) (t.discover root) := by
  have hopened : Tracks graph (({ s with frames := s.frames } : Search).opened graph root)
      (t.discover root) :=
    h.opened rfl h.unexamined (fun u hu v hex => .inl (h.examined u hu v hex)) (by simp [hframes])
      hnew hlt
  exact hopened

/-- Discovering the next successor of the innermost node under examination. -/
theorem descended (h : Tracks graph s t) (hclosed : graph.Closed) {node successor : Nat}
    {later : List Nat} {outer : List Frame}
    (hframes : s.frames = ⟨node, successor :: later⟩ :: outer) (hnew : successor ∉ t.discovered) :
    Tracks graph (({ s with frames := ⟨node, later⟩ :: outer } : Search).opened graph successor)
      (t.discover successor) := by
  have hedge := h.edge_innermost hframes
  refine h.opened (map_node_of_cons hframes).symm (h.unexamined_advance hframes)
    (fun _ hu _ hex => h.examined_advance hframes hu hex) ?_ hnew (hclosed _ _ hedge)
  intro inner hinner
  cases hinner
  exact hedge

/-- Whatever move a step is, the state belongs to the traversal again. -/
theorem move (h : Tracks graph s t) (hclosed : graph.Closed) {s' : Search} {t' : Traversal}
    (hmove : Move graph s t s' t') : Tracks graph s' t' := by
  cases hmove with
  | descend hframes hnew => exact h.descended hclosed hframes hnew
  | tighten hframes hstack => exact (h.advance hframes (h.stack_subset hstack)).lowered _ _
  | skip hframes hplaced => exact h.advance hframes (h.order_subset _ hplaced)
  | retreat hframes hlow => exact (h.closed hframes).innermostLowered _
  | @complete node outer upper rest hframes hlow hstack =>
    have hsublist := h.frames
    rw [hframes, hstack] at hsublist
    exact ((h.closed hframes).innermostLowered _).placed _ hstack
      (sublist_of_cons_sublist_append (h.not_mem_upper hstack) hsublist)

end Tracks

end Search

end FuzzyHierarchy
