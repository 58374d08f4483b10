import FuzzyHierarchy.Proofs.Graph.ComponentSearch

/-
The history of a search: the states that it comes to, each with a log of what has happened until
then. A node is discovered as the next root, which is the first node not discovered yet, or as a
successor that is new; and each step that does not retire a node examines one entry of a successor
list.

Main statements: the states that a search passes through have a history, and so has the one that it
ends with; in every history of that one each node of the graph is discovered once and each entry of
each successor list is examined once.
-/

namespace FuzzyHierarchy

/-- What can happen in a search. -/
inductive Event where
  /-- A node is discovered. -/
  | discover (node : Nat)
  /-- The entry at a position of the successor list of a node is examined, which is `successor`. -/
  | examine (node position successor : Nat)
  deriving DecidableEq, Repr

namespace Event

/-- The node that is discovered. -/
def discovered? : Event → Option Nat
  | discover node => some node
  | examine _ _ _ => none

/-- The entry that is examined in the successor list of `node`, with its position. -/
def entry? (node : Nat) : Event → Option (Nat × Nat)
  | discover _ => none
  | examine owner position successor => if owner = node then some (successor, position) else none

end Event

/-- The nodes that are discovered, in order. -/
def discoveries (log : List Event) : List Nat := log.filterMap Event.discovered?

/-- The entries that are examined in the successor list of a node, in order. -/
def entries (log : List Event) (node : Nat) : List (Nat × Nat) := log.filterMap (Event.entry? node)

section Log

variable {log : List Event} {node other position successor : Nat}

@[simp] theorem discoveries_append_discover :
    discoveries (log ++ [.discover node]) = discoveries log ++ [node] := by
  simp [discoveries, Event.discovered?]

@[simp] theorem discoveries_append_examine :
    discoveries (log ++ [.examine node position successor]) = discoveries log := by
  simp [discoveries, Event.discovered?]

@[simp] theorem entries_append_discover :
    entries (log ++ [.discover other]) node = entries log node := by
  simp [entries, Event.entry?]

theorem entries_append_examine :
    entries (log ++ [.examine other position successor]) node =
      entries log node ++ if other = node then [(successor, position)] else [] := by
  by_cases h : other = node <;> simp [entries, Event.entry?, h]

theorem count_discover : log.count (.discover node) = (discoveries log).count node := by
  rw [discoveries, List.count_filterMap, List.count]
  congr 1
  funext event
  cases event <;> simp [Event.discovered?]

theorem count_examine : log.count (.examine node position successor) =
    (entries log node).count (successor, position) := by
  rw [entries, List.count_filterMap, List.count]
  congr 1
  funext event
  cases event with
  | discover other => simp [Event.entry?]
  | examine other k found =>
    by_cases h : other = node <;> simp [Event.entry?, h, and_comm]

/-- Every entry of a list stands once among its entries with their positions. -/
theorem count_zipIdx {values : List Nat} :
    values.zipIdx.count (successor, position) =
      if values[position]? = some successor then 1 else 0 := by
  have hnodup : values.zipIdx.Nodup := by
    refine List.Nodup.of_map Prod.snd ?_
    rw [List.zipIdx_map_snd]
    exact List.nodup_range'
  split
  · rename_i hget
    exact List.count_eq_one_of_mem hnodup (List.mem_zipIdx_iff_getElem?.2 hget)
  · rename_i hget
    exact List.count_eq_zero_of_not_mem (mt List.mem_zipIdx_iff_getElem?.1 hget)

end Log

namespace Search

/-- What the next step does: it examines the next entry of the innermost node under examination and
discovers the successor there if it is new, or it retires the node. -/
def events (s : Search) (graph : Graph) : List Event :=
  match s.frames with
  | ⟨node, successor :: later⟩ :: _ =>
    .examine node (graph.degree node - (later.length + 1)) successor ::
      if s.index.contains successor then [] else [.discover successor]
  | _ => []

/-- A state that a search of the graph comes to, with what has happened until then. -/
inductive History (graph : Graph) : List Event → Search → Prop
  | start : History graph [] {}
  | root {log : List Event} {s s' : Search} {root : Nat} (h : History graph log s)
      (hframes : s.frames = []) (hearlier : ∀ node < root, s.index.contains node = true)
      (hnew : s.index.contains root = false) (hdiscover : s.discover graph root = .ok s') :
      History graph (log ++ [.discover root]) s'
  | step {log : List Event} {s s' : Search} (h : History graph log s) (hframes : s.frames ≠ [])
      (hstep : s.step graph = .ok s') : History graph (log ++ s.events graph) s'

/-- The states that the search of a graph passes through: the one that it starts in, one for the
discovery of each root that the roots before it did not lead to, and one after each step that is
taken from there. -/
inductive Passes (graph : Graph) : Search → Prop
  | start : Passes graph {}
  | root {before s : Search} {root : Nat} (hlt : root < graph.size)
      (hbefore : (List.range root).foldlM (Search.explore graph) {} = .ok before)
      (hnew : before.index.contains root = false) (hdiscover : before.discover graph root = .ok s) :
      Passes graph s
  | step {s s' : Search} (h : Passes graph s) (hframes : s.frames ≠ [])
      (hstep : s.step graph = .ok s') : Passes graph s'

/-- What every step keeps is kept by running, which ends where nothing is under examination. -/
theorem run_invariant {graph : Graph} {s last : Search} (holds : Search → Prop)
    (hstep : ∀ s s', holds s → s.frames ≠ [] → s.step graph = .ok s' → holds s') (h : holds s)
    (hrun : s.run graph = .ok last) : holds last ∧ last.frames = [] := by
  induction s using Search.run.induct graph with
  | case1 s hframes =>
    rw [run, dif_pos hframes] at hrun
    cases hrun
    exact ⟨h, hframes⟩
  | case2 s hframes fault hfault =>
    rw [run, dif_neg hframes] at hrun
    split at hrun
    · cases hrun
    · rename_i next hnext
      rw [hfault] at hnext
      cases hnext
  | case3 s hframes next hnext ih =>
    rw [run, dif_neg hframes] at hrun
    split at hrun
    · cases hrun
    · rename_i next' hnext'
      rw [hnext] at hnext'
      cases hnext'
      exact ih (hstep s next h hframes hnext) hrun

/-- The search of the first roots ends in a state that the whole search passes through. -/
theorem passes_of_foldlM {graph : Graph} {s : Search} {roots : Nat} (hle : roots ≤ graph.size)
    (hsearch : (List.range roots).foldlM (explore graph) {} = .ok s) : Passes graph s := by
  induction roots generalizing s with
  | zero =>
    cases hsearch
    exact .start
  | succ roots ih =>
    rw [List.range_succ, List.foldlM_append] at hsearch
    obtain ⟨before, hbefore, hlast⟩ := exists_of_bind_eq_ok hsearch
    obtain ⟨last, hexplore, hlast⟩ := exists_of_bind_eq_ok hlast
    cases hlast
    unfold explore at hexplore
    split at hexplore
    · cases hexplore
      exact ih (Nat.le_of_succ_le hle) hbefore
    · rename_i hnew
      obtain ⟨opened, hdiscover, hrun⟩ := exists_of_bind_eq_ok hexplore
      have hopened : Passes graph opened := .root hle hbefore (Bool.eq_false_iff.2 hnew) hdiscover
      exact (run_invariant (Passes graph) (fun _ _ => .step) hopened hrun).1

/-- The state in which the search ends is one that it passes through. -/
theorem passes_of_search {graph : Graph} {s : Search} (hsearch : graph.search = .ok s) :
    Passes graph s :=
  passes_of_foldlM le_rfl hsearch

/-! ## What a log says of a state -/

/-- The log of a state with these frames and this traversal: the discoveries are those of the
traversal, and of each successor list it has the entries before the unexamined ones. -/
structure Recorded (graph : Graph) (log : List Event) (frames : List Frame) (t : Traversal) :
    Prop where
  discoveries : discoveries log = t.discovered
  active : ∀ frame ∈ frames, ∃ seen, seen ++ frame.unexamined = graph.next frame.node ∧
    entries log frame.node = seen.zipIdx
  undiscovered : ∀ node, node ∉ t.discovered → entries log node = []
  finished : ∀ node ∈ t.discovered, node ∉ frames.map Frame.node →
    entries log node = (graph.next node).zipIdx

variable {graph : Graph} {log : List Event} {s s' : Search} {t t' : Traversal} {node : Nat}

namespace Recorded

variable {frames outer : List Frame} {successor : Nat} {later : List Nat}

theorem start : Recorded graph [] [] {} where
  discoveries := rfl
  active frame hframe := by cases hframe
  undiscovered node hnode := rfl
  finished node hnode := by cases hnode

/-- Examining the next entry of the innermost node. -/
theorem advance (h : Recorded graph log (⟨node, successor :: later⟩ :: outer) t)
    (hnode : node ∈ t.discovered) (honce : node ∉ outer.map Frame.node) :
    Recorded graph (log ++ [.examine node (graph.degree node - (later.length + 1)) successor])
      (⟨node, later⟩ :: outer) t where
  discoveries := discoveries_append_examine.trans h.discoveries
  active frame hframe := by
    rw [entries_append_examine]
    rcases List.mem_cons.1 hframe with rfl | hframe
    · obtain ⟨seen, hseen, hentries⟩ := h.active _ List.mem_cons_self
      -- the position of the entry is the number of those before it
      have hlength : graph.degree node - (later.length + 1) = seen.length := by
        change (graph.next node).length - (later.length + 1) = seen.length
        rw [← hseen, List.length_append, List.length_cons, Nat.add_sub_cancel]
      refine ⟨seen ++ [successor], by rw [← hseen, ← List.append_cons], ?_⟩
      rw [if_pos rfl, hentries, hlength, List.zipIdx_append, Nat.zero_add, List.zipIdx_singleton]
    · have hne : node ≠ frame.node := fun heq => honce (heq ▸ List.mem_map_of_mem hframe)
      rw [if_neg hne, List.append_nil]
      exact h.active frame (List.mem_cons_of_mem _ hframe)
  undiscovered n hn := by
    have hne : node ≠ n := fun heq => hn (heq ▸ hnode)
    rw [entries_append_examine, if_neg hne, List.append_nil]
    exact h.undiscovered n hn
  finished n hn hactive := by
    have hne : node ≠ n := fun heq => hactive (heq ▸ List.mem_cons_self)
    rw [entries_append_examine, if_neg hne, List.append_nil]
    exact h.finished n hn hactive

/-- Examining the next entry in a state of the search. -/
theorem advanceInnermost (h : Recorded graph log s.frames t) (ht : Tracks graph s t)
    (hframes : s.frames = ⟨node, successor :: later⟩ :: outer) :
    Recorded graph (log ++ [.examine node (graph.degree node - (later.length + 1)) successor])
      (⟨node, later⟩ :: outer) t := by
  have honce := ht.stack_nodup.sublist ht.frames
  rw [hframes] at h honce
  exact h.advance (ht.stack_subset (ht.innermost_on_stack hframes)) (List.nodup_cons.1 honce).1

/-- Discovering a node, of which no entry is examined yet. -/
theorem opened (h : Recorded graph log frames t) (hnew : node ∉ t.discovered) :
    Recorded graph (log ++ [.discover node]) (⟨node, graph.next node⟩ :: frames)
      (t.discover node) where
  discoveries := by
    rw [discoveries_append_discover, h.discoveries, Traversal.discovered_discover]
  active frame hframe := by
    rw [entries_append_discover]
    rcases List.mem_cons.1 hframe with rfl | hframe
    · exact ⟨[], List.nil_append _, h.undiscovered node hnew⟩
    · exact h.active frame hframe
  undiscovered n hn := by
    rw [entries_append_discover]
    exact h.undiscovered n fun hmem => hn (List.mem_append_left _ hmem)
  finished n hn hactive := by
    rw [List.map_cons, List.mem_cons, not_or] at hactive
    rw [entries_append_discover]
    refine h.finished n ((List.mem_append.1 hn).resolve_right fun hmem => ?_) hactive.2
    exact hactive.1 (List.mem_singleton.1 hmem)

/-- Closing the frame of an exhausted node. -/
theorem closed (h : Recorded graph log (⟨node, []⟩ :: outer) t) :
    Recorded graph log outer (t.finish node) where
  discoveries := h.discoveries
  active frame hframe := h.active frame (List.mem_cons_of_mem _ hframe)
  undiscovered := h.undiscovered
  finished n hn hactive := by
    by_cases heq : n = node
    · obtain ⟨seen, hseen, hentries⟩ := h.active _ List.mem_cons_self
      rw [List.append_nil] at hseen
      rw [heq, hentries, hseen]
    · refine h.finished n hn ?_
      rw [List.map_cons, List.mem_cons, not_or]
      exact ⟨heq, hactive⟩

/-- Whatever move a step is, its events bring the log up to date. -/
theorem move (h : Recorded graph log s.frames t) (ht : Tracks graph s t)
    (hmove : Move graph s t s' t') : Recorded graph (log ++ s.events graph) s'.frames t' := by
  cases hmove with
  | descend hframes hnew =>
    rw [events, hframes]
    simp only [if_neg (mt ht.index_contains.1 hnew)]
    rw [List.append_cons]
    exact (h.advanceInnermost ht hframes).opened hnew
  | tighten hframes hstack =>
    rw [events, hframes]
    simp only [if_pos (ht.index_contains.2 (ht.stack_subset hstack))]
    exact h.advanceInnermost ht hframes
  | skip hframes hplaced =>
    rw [events, hframes]
    simp only [if_pos (ht.index_contains.2 (ht.order_subset _ hplaced))]
    exact h.advanceInnermost ht hframes
  | retreat hframes hlow =>
    rw [events, hframes, List.append_nil]
    exact (hframes ▸ h : Recorded graph log (⟨_, []⟩ :: _) t).closed
  | complete hframes hlow hstack =>
    rw [events, hframes, List.append_nil]
    exact (hframes ▸ h : Recorded graph log (⟨_, []⟩ :: _) t).closed

end Recorded

namespace History

/-- Every state of a history keeps the invariant of the search, and its log records it. -/
theorem exists_recorded (hclosed : graph.Closed) (h : History graph log s) :
    ∃ t, Invariant graph s t ∧ Recorded graph log s.frames t := by
  induction h with
  | start => exact ⟨{}, .start, .start⟩
  | @root log s s' root _ hframes _ hnew hdiscover ih =>
    obtain ⟨t, hinv, hrecorded⟩ := ih
    have hnew : root ∉ t.discovered := by
      rw [← hinv.tracks.index_contains, hnew]
      exact Bool.false_ne_true
    -- the root is a node of the graph, or it could not be discovered
    obtain ⟨successors, hsuccessors, -⟩ := exists_of_bind_eq_ok hdiscover
    have hlt : root < graph.size := by
      by_contra hge
      unfold Graph.size at hge
      simp [Graph.successorsOf, Nat.not_lt.1 hge] at hsuccessors
    rw [discover_eq_ok hlt] at hdiscover
    cases hdiscover
    exact ⟨_, hinv.openedRoot hframes hnew hlt, hrecorded.opened hnew⟩
  | @step log s s' _ hframes hstep ih =>
    obtain ⟨t, hinv, hrecorded⟩ := ih
    obtain ⟨s'', t', hstep', hmove⟩ := hinv.tracks.step_eq_ok hclosed hframes
    rw [hstep] at hstep'
    cases hstep'
    exact ⟨t', hinv.move hclosed hmove, hrecorded.move hinv.tracks hmove⟩

/-- The discovered nodes are those that the log tells of. -/
theorem index_contains (hclosed : graph.Closed) (h : History graph log s) :
    s.index.contains node = true ↔ node ∈ discoveries log := by
  obtain ⟨t, hinv, hrecorded⟩ := h.exists_recorded hclosed
  rw [hrecorded.discoveries, hinv.tracks.index_contains]

/-! ## The history of a whole search -/

/-- Running a search continues its history. -/
theorem run (h : History graph log s) (hrun : s.run graph = .ok s') :
    ∃ log', log <+: log' ∧ History graph log' s' ∧ s'.frames = [] := by
  obtain ⟨⟨log', hlonger, hlast⟩, hframes⟩ :=
    run_invariant (fun s => ∃ log', log <+: log' ∧ History graph log' s)
      (fun s s' ⟨log', hlonger, h⟩ hframes hstep =>
        ⟨_, hlonger.trans (List.prefix_append _ _), h.step hframes hstep⟩)
      ⟨log, List.prefix_rfl, h⟩ hrun
  exact ⟨log', hlonger, hlast, hframes⟩

/-- Exploring the next root continues the history, and the root is discovered then. -/
theorem explore {root : Nat} (hclosed : graph.Closed) (h : History graph log s)
    (hframes : s.frames = []) (hearlier : ∀ node < root, s.index.contains node = true)
    (hexplore : Search.explore graph s root = .ok s') :
    ∃ log', History graph log' s' ∧ s'.frames = [] ∧
      ∀ node < root + 1, s'.index.contains node = true := by
  unfold Search.explore at hexplore
  split at hexplore
  · rename_i hknown
    cases hexplore
    refine ⟨log, h, hframes, fun node hnode => ?_⟩
    rcases Nat.lt_succ_iff_lt_or_eq.1 hnode with hnode | rfl
    · exact hearlier node hnode
    · exact hknown
  · rename_i hnew
    obtain ⟨opened, hdiscover, hrun⟩ := exists_of_bind_eq_ok hexplore
    obtain ⟨log', hlonger, hlast, hframes'⟩ :=
      (h.root hframes hearlier (Bool.eq_false_iff.2 hnew) hdiscover).run hrun
    refine ⟨log', hlast, hframes', fun node hnode => ?_⟩
    -- what is discovered once is in every later log
    have hgrow : discoveries (log ++ [.discover root]) ⊆ discoveries log' :=
      (hlonger.filterMap _).subset
    rw [hlast.index_contains hclosed]
    refine hgrow ?_
    rw [discoveries_append_discover, List.mem_append, List.mem_singleton]
    rcases Nat.lt_succ_iff_lt_or_eq.1 hnode with hnode | rfl
    · exact .inl ((h.index_contains hclosed).1 (hearlier node hnode))
    · exact .inr rfl

/-- The search of the first roots has a history, in which all of them are discovered. -/
theorem foldlM_explore (hclosed : graph.Closed) {roots : Nat}
    (hsearch : (List.range roots).foldlM (Search.explore graph) {} = .ok s) :
    ∃ log, History graph log s ∧ s.frames = [] ∧ ∀ node < roots, s.index.contains node = true := by
  induction roots generalizing s with
  | zero =>
    cases hsearch
    exact ⟨[], .start, rfl, fun node hnode => absurd hnode (Nat.not_lt_zero node)⟩
  | succ roots ih =>
    rw [List.range_succ, List.foldlM_append] at hsearch
    obtain ⟨middle, hmiddle, hlast⟩ := exists_of_bind_eq_ok hsearch
    obtain ⟨log, h, hframes, hearlier⟩ := ih hmiddle
    refine h.explore hclosed hframes hearlier ?_
    obtain ⟨last, hexplore, hlast⟩ := exists_of_bind_eq_ok hlast
    cases hlast
    exact hexplore

theorem search (hclosed : graph.Closed) (hsearch : graph.search = .ok s) :
    ∃ log, History graph log s ∧ s.frames = [] ∧
      ∀ node < graph.size, s.index.contains node = true :=
  foldlM_explore hclosed hsearch

/-- The states that the search passes through have a history. -/
theorem of_passes (hclosed : graph.Closed) (h : Passes graph s) : ∃ log, History graph log s := by
  induction h with
  | start => exact ⟨[], .start⟩
  | root _ hbefore hnew hdiscover =>
    obtain ⟨log, h, hframes, hearlier⟩ := foldlM_explore hclosed hbefore
    exact ⟨_, h.root hframes hearlier hnew hdiscover⟩
  | step _ hframes hstep ih =>
    obtain ⟨log, h⟩ := ih
    exact ⟨_, h.step hframes hstep⟩

/-! ## Once each -/

section Once

variable (hclosed : graph.Closed) (hsearch : graph.search = .ok s) (h : History graph log s)

include hclosed hsearch h

/-- Every node of the graph is discovered once in a search. -/
theorem count_discover_eq :
    log.count (.discover node) = if node < graph.size then 1 else 0 := by
  obtain ⟨_, -, -, hall⟩ := search hclosed hsearch
  obtain ⟨t, hinv, hrecorded⟩ := h.exists_recorded hclosed
  rw [count_discover, hrecorded.discoveries]
  split
  · rename_i hlt
    exact List.count_eq_one_of_mem hinv.tracks.discovered_nodup
      (hinv.tracks.index_contains.1 (hall node hlt))
  · rename_i hge
    exact List.count_eq_zero_of_not_mem fun hmem => hge (hinv.tracks.inGraph node hmem)

/-- Every entry of every successor list is examined once in a search. -/
theorem count_examine_eq {position successor : Nat} :
    log.count (.examine node position successor) =
      if (graph.next node)[position]? = some successor then 1 else 0 := by
  obtain ⟨_, -, hframes, hall⟩ := search hclosed hsearch
  obtain ⟨t, hinv, hrecorded⟩ := h.exists_recorded hclosed
  have hentries : entries log node = (graph.next node).zipIdx := by
    by_cases hlt : node < graph.size
    · exact hrecorded.finished node (hinv.tracks.index_contains.1 (hall node hlt))
        (by simp [hframes])
    · rw [Graph.next_eq_nil (Nat.not_lt.1 hlt)]
      exact hrecorded.undiscovered node fun hmem => hlt (hinv.tracks.inGraph node hmem)
  rw [count_examine, hentries, count_zipIdx]

end Once

end History

end Search

end FuzzyHierarchy
