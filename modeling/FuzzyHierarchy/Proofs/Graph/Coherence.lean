import FuzzyHierarchy.Proofs.Graph.History

/-
What can be said of every state that a search comes to, and of every component that it completes,
without the traversal behind it.

Main statements: every state of a history is coherent, that is, its stack, indices, lowlinks, frames
and order fit together and fit the graph; a step changes the order only by completing a component;
and what is taken off the stack then is the strongly connected component of its root.
-/

namespace FuzzyHierarchy

namespace Search

variable {graph : Graph} {log : List Event} {s s' : Search} {t t' : Traversal} {root n : Nat}

/-! ## States -/

/-- What holds of the state of a search at every moment. The stack and the frames have the node that
was discovered last in front. -/
structure Coherent (graph : Graph) (s : Search) : Prop where
  /-- The indices and the lowlinks of the nodes on the stack are known. -/
  known : ∀ n ∈ s.stack, s.indexOf n = .ok (s.rank n) ∧ s.lowlinkOf n = .ok (s.low n)
  stack_nodup : s.stack.Nodup
  onStack : ∀ n, s.onStack.contains n = true ↔ n ∈ s.stack
  /-- On the stack are the discovered nodes that are not in the order yet. -/
  mem_stack : ∀ n, n ∈ s.stack ↔ s.index.contains n = true ∧ n ∉ s.order
  rank_inj : ∀ n m, s.index.contains n = true → s.index.contains m = true →
    s.rank n = s.rank m → n = m
  rank_lt : ∀ n, s.index.contains n = true → s.rank n < s.nextIndex
  stack_sorted : s.stack.Pairwise fun later earlier => s.rank earlier < s.rank later
  frames_on_stack : ∀ p ∈ s.frames.map Frame.node, p ∈ s.stack
  /-- Each node under examination was discovered as a successor of the one outside it. -/
  frames_path : (s.frames.map Frame.node).IsChain fun inner outer => graph.Edge outer inner
  frames_sorted : (s.frames.map Frame.node).Pairwise fun inner outer => s.rank outer < s.rank inner
  low_le : ∀ n ∈ s.stack, s.low n ≤ s.rank n
  /-- A lowlink is the index of a node on the stack that is reached. -/
  low_reached : ∀ n ∈ s.stack, ∃ m ∈ s.stack, s.low n = s.rank m ∧ graph.Reaches n m
  /-- From the stack a node under examination is reached that was discovered no later. -/
  reaches_frame : ∀ n ∈ s.stack, ∃ p ∈ s.frames.map Frame.node,
    s.rank p ≤ s.rank n ∧ graph.Reaches n p
  order_closed : ∀ u v, u ∈ s.order → graph.Edge u v → v ∈ s.order

theorem Invariant.coherent (h : Invariant graph s t) : Coherent graph s where
  known n hn := by
    have hdisc := h.tracks.stack_subset hn
    exact ⟨indexOf_eq_ok (h.tracks.index_contains.2 hdisc),
      lowlinkOf_eq_ok (h.tracks.lowlink n hdisc)⟩
  stack_nodup := h.tracks.stack_nodup
  onStack := h.tracks.onStack
  mem_stack n := by rw [h.tracks.index_contains, h.tracks.mem_stack]
  rank_inj n m hn hm heq :=
    (h.tracks.rank_inj (h.tracks.index_contains.1 hn) (h.tracks.index_contains.1 hm)).1 heq
  rank_lt n hn := h.tracks.rank_lt (h.tracks.index_contains.1 hn)
  stack_sorted := h.tracks.pairwise_stack
  frames_on_stack _ hp := h.tracks.frames.subset hp
  frames_path := h.tracks.path
  frames_sorted := h.tracks.pairwise_frames
  low_le n hn := h.lowlinks.low_le hn
  low_reached n hn := by
    obtain ⟨m, hm, hlow, -, hreach⟩ := h.lowlinks.low n hn
    exact ⟨m, hm, hlow, hreach⟩
  reaches_frame n hn := h.lowlinks.reaches_active hn
  order_closed := h.placement.closed

/-- Every state that a search comes to is coherent. -/
theorem History.coherent (hclosed : graph.Closed) (h : History graph log s) : Coherent graph s := by
  obtain ⟨t, hinv, -⟩ := h.exists_recorded hclosed
  exact hinv.coherent

/-! ## Components -/

/-- The next step of `s` completes the component of `root`: the frame of `root` is exhausted, and
its lowlink, which the node outside it takes over, is its index. The component is taken off the
stack of `before`. -/
def Completes (s : Search) (root : Nat) (before : Search) : Prop :=
  ∃ outer lowlink, s.frames = ⟨root, []⟩ :: outer ∧
    ({ s with frames := outer } : Search).lowlinkOf root = .ok lowlink ∧
    ({ s with frames := outer } : Search).lowerInnermost lowlink = .ok before ∧
    before.indexOf root = .ok lowlink

variable {before after : Search}

theorem Completes.step_eq (h : s.Completes root before) :
    s.step graph = before.completeComponent graph root := by
  obtain ⟨outer, lowlink, hframes, hlow, hbefore, hindex⟩ := h
  have hstep : s.step graph = ({ s with frames := outer } : Search).retire graph root := by
    simp only [step, hframes]
  rw [hstep, retire, bind_of_eq_ok hlow, bind_of_eq_ok hbefore, bind_of_eq_ok hindex, if_pos rfl]

theorem Tracks.completes_iff (ht : Tracks graph s t) :
    s.Completes root before ↔ ∃ outer, s.frames = ⟨root, []⟩ :: outer ∧
      s.low root = s.rank root ∧
      before = ({ s with frames := outer } : Search).innermostLowered (s.low root) := by
  refine exists_congr fun outer => ?_
  by_cases hframes : s.frames = ⟨root, []⟩ :: outer
  · have hdisc := ht.stack_subset (ht.innermost_on_stack hframes)
    have hlow : ({ s with frames := outer } : Search).lowlinkOf root = .ok (s.low root) :=
      lowlinkOf_eq_ok (ht.lowlink root hdisc)
    have hbefore : ({ s with frames := outer } : Search).lowerInnermost (s.low root) =
        .ok (({ s with frames := outer } : Search).innermostLowered (s.low root)) :=
      lowerInnermost_eq fun frame hframe =>
        ht.lowlink _ (ht.frame_discovered (by simp [hframes, hframe]))
    have hindex :
        (({ s with frames := outer } : Search).innermostLowered (s.low root)).indexOf root =
          .ok (s.rank root) := indexOf_eq_ok (ht.index_contains.2 hdisc)
    constructor
    · rintro ⟨lowlink, -, hlow', hbefore', hindex'⟩
      cases hlow.symm.trans hlow'
      cases hbefore.symm.trans hbefore'
      exact ⟨hframes, (Except.ok.inj (hindex.symm.trans hindex')).symm, rfl⟩
    · rintro ⟨-, hroot, rfl⟩
      exact ⟨s.low root, hframes, hlow, hbefore, hroot ▸ hindex⟩
  · exact iff_of_false (fun ⟨_, h, _⟩ => hframes h) fun ⟨h, _⟩ => hframes h

/-- What comes of taking the component of `root` off the stack of `before`, after what `log` tells:
`members` are taken. -/
structure Completion (graph : Graph) (log : List Event) (root : Nat) (before after : Search)
    (members : List Nat) : Prop where
  taken : unwind root before.stack [] = .ok (members, after.stack)
  mem_iff : ∀ n, n ∈ members ↔ graph.Mutual root n
  /-- What stands on the stack below the members, of which `root` is the lowest, is left. -/
  stack : before.stack = members.reverse ++ after.stack
  head : members.head? = some root
  /-- The members lead to each other and to the components that are complete. -/
  closed : ∀ u ∈ members, ∀ v, graph.Edge u v → v ∈ members ∨ v ∈ before.order
  order : after.order.toList = before.order.toList ++ members
  /-- The members stand in the order of their discovery. -/
  discovered : members.Sublist (discoveries log)
  discovered_once : (discoveries log).Nodup

theorem Invariant.exists_completion (h : Invariant graph s t)
    (hrecorded : Recorded graph log s.frames t) (hcompletes : s.Completes root before) :
    ∃ members after, before.completeComponent graph root = .ok after ∧
      Completion graph log root before after members := by
  obtain ⟨outer, hframes, hroot, rfl⟩ := h.tracks.completes_iff.1 hcompletes
  have hmem : root ∈ s.stack := h.tracks.innermost_on_stack hframes
  obtain ⟨upper, rest, hstack⟩ := List.append_of_mem hmem
  have hnot := h.tracks.not_mem_upper hstack
  have hupper := fun m => h.tracks.mem_upper_iff hstack (m := m)
  refine ⟨root :: upper.reverse, _, completeComponent_eq_placed hstack hnot
    (h.tracks.inGraph root (h.tracks.stack_subset hmem)), ?_⟩
  refine {
    taken := ?taken, mem_iff := fun n => ?mem_iff, stack := ?stack, head := rfl
    closed := fun u hu v hedge => ?closed, order := order_placed _ _ _, discovered := ?discovered
    discovered_once := hrecorded.discoveries ▸ h.tracks.discovered_nodup }
  case taken =>
    have hunwind : unwind root (upper ++ root :: rest) [] =
        .ok (root :: upper.reverse ++ [], rest) := unwind_append upper [] hnot
    rw [← hstack, List.append_nil] at hunwind
    exact hunwind
  case mem_iff =>
    exact (h.placement.mutual_iff_mem_upper h.lowlinks h.tracks hframes hroot hstack).symm
  case stack =>
    rw [List.reverse_cons, List.reverse_reverse, List.append_assoc]
    exact hstack
  case closed =>
    obtain ⟨hu, hle⟩ := (hupper u).1 hu
    exact (h.lowlinks.edge_root h.tracks hframes hroot hu hle hedge).imp_left (hupper v).2
  case discovered =>
    rw [← h.placement.component_eq_upper h.lowlinks h.tracks hframes hroot hstack,
      hrecorded.discoveries]
    exact List.filter_sublist

/-- A move that adds to the order completes a component. -/
theorem Move.order_eq_or_completes (ht : Tracks graph s t) (hmove : Move graph s t s' t') :
    s'.order = s.order ∨ ∃ root before, s.Completes root before := by
  cases hmove with
  | descend | tighten | skip | retreat => exact .inl rfl
  | complete hframes hlow hstack =>
    exact .inr ⟨_, _, ht.completes_iff.2 ⟨_, hframes, hlow, rfl⟩⟩

namespace History

variable (hclosed : graph.Closed) (h : History graph log s)

include hclosed h

/-- Where a step completes a component, it is the component of the root that is taken off the
stack. -/
theorem exists_completion (hcompletes : s.Completes root before) :
    ∃ members after, before.completeComponent graph root = .ok after ∧
      Completion graph log root before after members := by
  obtain ⟨t, hinv, hrecorded⟩ := h.exists_recorded hclosed
  exact hinv.exists_completion hrecorded hcompletes

/-- No other step adds to the order. -/
theorem order_eq_or_completes (hstep : s.step graph = .ok s') :
    s'.order = s.order ∨ ∃ root before, s.Completes root before := by
  obtain ⟨t, hinv, -⟩ := h.exists_recorded hclosed
  by_cases hframes : s.frames = []
  · left
    simp only [Search.step, hframes] at hstep
    cases hstep
    rfl
  · obtain ⟨s'', t', hstep', hmove⟩ := hinv.tracks.step_eq_ok hclosed hframes
    cases hstep.symm.trans hstep'
    exact hmove.order_eq_or_completes hinv.tracks

end History

end Search

end FuzzyHierarchy
