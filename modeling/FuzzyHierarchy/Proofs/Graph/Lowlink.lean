import FuzzyHierarchy.Proofs.Graph.Bookkeeping

/-
What the lowlinks of a search state say about paths. The lowlink of a node on the stack is the index
of a node on the stack that it reaches, and no examined edge leads from it to a smaller index. A
node on the stack that is finished has a lowlink below its index, so it leads on to an earlier node,
and in the end to one under examination.

Main statements: every move keeps this, and an exhausted node whose lowlink is its index has exactly
its component on the stack down to it.
-/

namespace FuzzyHierarchy

namespace Search

/-- The lowlinks of the nodes on the stack. -/
structure Lowlinks (graph : Graph) (s : Search) : Prop where
  low : ∀ n ∈ s.stack, ∃ m ∈ s.stack,
    s.low n = s.rank m ∧ s.rank m ≤ s.rank n ∧ graph.Reaches n m
  examined : ∀ n ∈ s.stack, ∀ m ∈ s.stack, graph.Examined s.frames n m → s.low n ≤ s.rank m
  /-- Finished nodes lead back. -/
  returns : ∀ n ∈ s.stack, n ∉ s.frames.map Frame.node → s.low n < s.rank n
  /-- The last node under examination that was discovered no later has no greater lowlink. -/
  covered : ∀ n ∈ s.stack, ∃ p ∈ s.frames.map Frame.node,
    s.rank p ≤ s.rank n ∧ s.low p ≤ s.low n ∧
      ∀ q ∈ s.frames.map Frame.node, s.rank q ≤ s.rank n → s.rank q ≤ s.rank p
  /-- A node under examination leads to what was discovered after it. -/
  leads : ∀ p ∈ s.frames.map Frame.node, ∀ n ∈ s.stack, s.rank p ≤ s.rank n → graph.Reaches p n

namespace Lowlinks

variable {graph : Graph} {s : Search} {t : Traversal} {node successor n m : Nat}
  {later : List Nat} {outer : List Frame}

theorem start : Lowlinks graph {} where
  low n hn := by cases hn
  examined n hn := by cases hn
  returns n hn := by cases hn
  covered n hn := by cases hn
  leads p hp := by cases hp

theorem low_le (h : Lowlinks graph s) (hn : n ∈ s.stack) : s.low n ≤ s.rank n := by
  obtain ⟨m, -, hlow, hle, -⟩ := h.low n hn
  exact hlow ▸ hle

/-- Every node on the stack leads to one under examination that was discovered no later. -/
theorem reaches_active (h : Lowlinks graph s) (hn : n ∈ s.stack) :
    ∃ p ∈ s.frames.map Frame.node, s.rank p ≤ s.rank n ∧ graph.Reaches n p := by
  induction hrank : s.rank n using Nat.strong_induction_on generalizing n with
  | _ i ih =>
    by_cases hactive : n ∈ s.frames.map Frame.node
    · exact ⟨n, hactive, hrank.le, .refl n⟩
    · -- the lowlink of a finished node is the index of an earlier one
      obtain ⟨m, hm, hlow, -, hreach⟩ := h.low n hn
      have hlt : s.rank m < i := hrank ▸ hlow ▸ h.returns n hn hactive
      obtain ⟨p, hp, hle, hback⟩ := ih _ hlt hm rfl
      exact ⟨p, hp, hle.trans hlt.le, hreach.trans hback⟩

/-- A finished node on the stack is not the first of its component that was discovered. -/
theorem exists_earlier (h : Lowlinks graph s) (ht : Tracks graph s t) (hn : n ∈ s.stack)
    (hactive : n ∉ s.frames.map Frame.node) :
    ∃ p ∈ t.discovered, graph.Mutual n p ∧ s.rank p < s.rank n := by
  obtain ⟨p, hp, hle, hreach⟩ := h.reaches_active hn
  have hdisc := ht.stack_subset (ht.frames.subset hp)
  refine ⟨p, hdisc, ⟨hreach, h.leads p hp n hn hle⟩, lt_of_le_of_ne hle fun heq => hactive ?_⟩
  rw [← (ht.rank_inj hdisc (ht.stack_subset hn)).1 heq]
  exact hp

theorem covers_self (ht : Tracks graph s t) {p : Nat} (hp : p ∈ s.frames.map Frame.node)
    (hn : n ∈ s.frames.map Frame.node) (hle : s.rank p ≤ s.rank n)
    (hmax : ∀ q ∈ s.frames.map Frame.node, s.rank q ≤ s.rank n → s.rank q ≤ s.rank p) : p = n :=
  (ht.rank_inj (ht.stack_subset (ht.frames.subset hp)) (ht.stack_subset (ht.frames.subset hn))).1
    (Nat.le_antisymm hle (hmax n hn le_rfl))

/-- With its lowlink lowered to the index of a node on the stack that it reaches, a node still has
the index of such a node for a lowlink. -/
theorem exists_low_lowered (h : Lowlinks graph s) (hm : m ∈ s.stack) (hreach : graph.Reaches node m)
    (hn : n ∈ s.stack) :
    ∃ k ∈ s.stack, (s.lowered node (s.rank m)).low n = s.rank k ∧ s.rank k ≤ s.rank n ∧
      graph.Reaches n k := by
  obtain ⟨k, hk, hlow, hle, hreachk⟩ := h.low n hn
  rw [low_lowered]
  split
  · rename_i heq
    subst heq
    rcases Nat.le_total (s.low node) (s.rank m) with hmin | hmin
    · exact ⟨k, hk, (Nat.min_eq_left hmin).trans hlow, hle, hreachk⟩
    · exact ⟨m, hm, Nat.min_eq_right hmin, hmin.trans (hlow ▸ hle), hreach⟩
  · exact ⟨k, hk, hlow, hle, hreachk⟩

/-! ## Every move keeps the lowlinks -/

/-- Discovering a node, from the innermost one under examination if there is one. -/
theorem opened {frames : List Frame} (h : Lowlinks graph { s with frames }) (ht : Tracks graph s t)
    (hnodes : frames.map Frame.node = s.frames.map Frame.node)
    (hedge : ∀ inner ∈ (frames.map Frame.node).head?, graph.Edge inner node)
    (hnew : node ∉ t.discovered) :
    Lowlinks graph (({ s with frames } : Search).opened graph node) := by
  have hne : ∀ n ∈ s.stack, node ≠ n := fun n hn heq => hnew (heq ▸ ht.stack_subset hn)
  have hlt : ∀ n ∈ s.stack, s.rank n < s.nextIndex := fun n hn => ht.rank_lt (ht.stack_subset hn)
  have hactive : ∀ p ∈ frames.map Frame.node, p ∈ s.stack := hnodes ▸ ht.frames.subset
  refine {
    low := fun n hn => ?low, examined := fun n hn m hm hex => ?examined
    returns := fun n hn hactive => ?returns, covered := fun n hn => ?covered
    leads := fun p hp n hn hle => ?leads }
  all_goals simp only [low_opened, rank_opened] at *
  case low =>
    rcases List.mem_cons.1 hn with rfl | hn
    · exact ⟨n, List.mem_cons_self, by simp [Graph.Reaches.refl]⟩
    · obtain ⟨m, hm, hlow⟩ := h.low n hn
      exact ⟨m, List.mem_cons_of_mem _ hm, by simpa [hne n hn, hne m hm] using hlow⟩
  case examined =>
    obtain ⟨hne', hex⟩ := Graph.Examined.of_open hex
    have hn' : n ∈ s.stack := List.mem_of_ne_of_mem hne' hn
    rw [if_neg (hne n hn')]
    rcases List.mem_cons.1 hm with heq | hm
    · rw [if_pos heq.symm]
      exact (h.low_le hn').trans (hlt n hn').le
    · rw [if_neg (hne m hm)]
      exact h.examined n hn' m hm hex
  case returns =>
    obtain ⟨hne', hactive⟩ := not_or.1 (mt List.mem_cons.2 hactive)
    have hn' : n ∈ s.stack := List.mem_of_ne_of_mem hne' hn
    rw [if_neg (hne n hn'), if_neg (hne n hn')]
    exact h.returns n hn' hactive
  case covered =>
    rcases List.mem_cons.1 hn with rfl | hn'
    · exact ⟨n, List.mem_cons_self, le_rfl, le_rfl, fun q _ hle => hle⟩
    · obtain ⟨p, hp, hrank, hlow, hmax⟩ := h.covered n hn'
      rw [if_neg (hne n hn'), if_neg (hne n hn')]
      refine ⟨p, List.mem_cons_of_mem _ hp, ?_⟩
      rw [if_neg (hne p (hactive p hp)), if_neg (hne p (hactive p hp))]
      refine ⟨hrank, hlow, fun q hq hle => ?_⟩
      rcases List.mem_cons.1 hq with heq | hq
      · rw [if_pos heq.symm] at hle
        exact absurd (hlt n hn') (Nat.not_lt.2 hle)
      · rw [if_neg (hne q (hactive q hq))] at hle ⊢
        exact hmax q hq hle
  case leads =>
    rcases List.mem_cons.1 hp with heqp | hp <;> rcases List.mem_cons.1 hn with heqn | hn'
    · rw [heqp, heqn]
    · rw [if_pos heqp.symm, if_neg (hne n hn')] at hle
      exact absurd (hlt n hn') (Nat.not_lt.2 hle)
    · -- the innermost node leads to the new one, and `p` to the innermost node
      obtain ⟨inner, nodes, hcons⟩ := List.exists_cons_of_ne_nil (List.ne_nil_of_mem hp)
      have hreach : graph.Reaches p inner := by
        refine h.leads p hp inner (hactive inner (by simp [hcons])) ?_
        rcases List.mem_cons.1 (hcons ▸ hp) with rfl | hp'
        · exact le_rfl
        · exact (ht.rank_lt_innermost (hnodes ▸ hcons) p hp').le
      rw [heqn]
      exact hreach.trans (hedge inner (by simp [hcons])).reaches
    · rw [if_neg (hne p (hactive p hp)), if_neg (hne n hn')] at hle
      exact h.leads p hp n hn' hle

theorem openedRoot (h : Lowlinks graph s) (ht : Tracks graph s t) (hframes : s.frames = [])
    (hnew : node ∉ t.discovered) : Lowlinks graph (s.opened graph node) := by
  have hopened : Lowlinks graph (({ s with frames := s.frames } : Search).opened graph node) :=
    opened h ht rfl (by simp [hframes]) hnew
  exact hopened

/-- A successor on the stack, whose index the lowlink takes into account. -/
theorem tightened (h : Lowlinks graph s) (ht : Tracks graph s t)
    (hframes : s.frames = ⟨node, successor :: later⟩ :: outer) (hstack : successor ∈ s.stack) :
    Lowlinks graph
      (({ s with frames := ⟨node, later⟩ :: outer } : Search).lowered node (s.rank successor)) := by
  have hnodes : s.frames.map Frame.node = (⟨node, later⟩ :: outer : List Frame).map Frame.node :=
    Tracks.map_node_of_cons hframes
  have hactive : node ∈ s.frames.map Frame.node := hnodes ▸ List.mem_cons_self
  refine {
    low := fun n hn => h.exists_low_lowered hstack (ht.edge_innermost hframes).reaches hn
    examined := fun n hn m hm hex => ?examined
    returns := fun n hn hactive => low_lowered_le.trans_lt (h.returns n hn (hnodes ▸ hactive))
    covered := fun n hn => ?covered
    leads := hnodes ▸ h.leads }
  case examined =>
    rcases hex.of_advance (ht.unexamined_innermost hframes) with hex | ⟨rfl, rfl⟩
    · exact low_lowered_le.trans (h.examined n hn m hm (hframes ▸ hex))
    · rw [low_lowered, if_pos rfl]
      exact Nat.min_le_right _ _
  case covered =>
    obtain ⟨p, hp, hrank, hlow, hmax⟩ := h.covered n hn
    refine ⟨p, hnodes ▸ hp, hrank, low_lowered_mono hlow fun heq => ?_, hnodes ▸ hmax⟩
    subst heq
    exact covers_self ht hp hactive hrank hmax

theorem skipped (h : Lowlinks graph s) (ht : Tracks graph s t)
    (hframes : s.frames = ⟨node, successor :: later⟩ :: outer) (hplaced : successor ∉ s.stack) :
    Lowlinks graph { s with frames := ⟨node, later⟩ :: outer } := by
  have hnodes : s.frames.map Frame.node = (⟨node, later⟩ :: outer : List Frame).map Frame.node :=
    Tracks.map_node_of_cons hframes
  refine {
    low := h.low, examined := fun n hn m hm hex => ?examined, returns := hnodes ▸ h.returns
    covered := hnodes ▸ h.covered, leads := hnodes ▸ h.leads }
  case examined =>
    rcases hex.of_advance (ht.unexamined_innermost hframes) with hex | ⟨-, rfl⟩
    · exact h.examined n hn m hm (hframes ▸ hex)
    · exact absurd hm hplaced

theorem exists_parent (h : Lowlinks graph s) (ht : Tracks graph s t)
    (hframes : s.frames = ⟨node, []⟩ :: outer) (hlow : s.low node ≠ s.rank node) :
    ∃ parent above, outer = parent :: above := by
  cases outer with
  | cons parent above => exact ⟨parent, above, rfl⟩
  | nil =>
    obtain ⟨m, hm, heq, hle, -⟩ := h.low node (ht.innermost_on_stack hframes)
    obtain ⟨p, hp, hrank, -⟩ := h.covered m hm
    have hp : p = node := by simpa [hframes] using hp
    rw [hp] at hrank
    omega

/-- An exhausted node that leads back passes its lowlink on. -/
theorem retreated (h : Lowlinks graph s) (ht : Tracks graph s t)
    (hframes : s.frames = ⟨node, []⟩ :: outer) (hlow : s.low node ≠ s.rank node) :
    Lowlinks graph (({ s with frames := outer } : Search).innermostLowered (s.low node)) := by
  obtain ⟨⟨parent, unexamined⟩, above, rfl⟩ := h.exists_parent ht hframes hlow
  have hnodes : s.frames.map Frame.node = node :: parent :: above.map Frame.node :=
    Tracks.map_node_of_cons hframes
  have hnode : node ∈ s.stack := ht.innermost_on_stack hframes
  have hparent : parent ∈ s.frames.map Frame.node := by simp [hnodes]
  have hlater : s.rank parent < s.rank node := ht.rank_lt_innermost hnodes parent List.mem_cons_self
  obtain ⟨m, hm, hbound, -, hreach⟩ := h.low node hnode
  have hleads : graph.Reaches parent m := (h.leads parent hparent node hnode hlater.le).trans hreach
  have hsub : ∀ p, p ∈ (parent :: above.map Frame.node) → p ∈ s.frames.map Frame.node := fun p hp =>
    hnodes ▸ List.mem_cons_of_mem _ hp
  -- the state has the lowlinks of `s` with that of `parent` lowered
  have hlow' : ∀ n, (({ s with frames := ⟨parent, unexamined⟩ :: above } : Search).innermostLowered
      (s.low node)).low n = (s.lowered parent (s.low node)).low n := by
    intro n
    rw [low_innermostLowered_cons rfl]
    rfl
  refine {
    low := fun n hn => ?low, examined := fun n hn m hm hex => ?examined
    returns := fun n hn hactive => ?returns, covered := fun n hn => ?covered
    leads := fun p hp => h.leads p (hsub p hp) }
  all_goals simp only [hlow', rank_innermostLowered]
  case low =>
    rw [hbound]
    exact h.exists_low_lowered hm hleads hn
  case examined =>
    exact low_lowered_le.trans (h.examined n hn m hm (hframes ▸ hex.of_close))
  case returns =>
    refine low_lowered_le.trans_lt ?_
    by_cases hn' : n = node
    · rw [hn']
      exact lt_of_le_of_ne (h.low_le hnode) hlow
    · exact h.returns n hn (hnodes ▸ List.not_mem_cons_of_ne_of_not_mem hn' hactive)
  case covered =>
    obtain ⟨p, hp, hrank, hle, hmax⟩ := h.covered n hn
    by_cases hp' : p = node
    · -- `parent` takes the place of `node`
      subst hp'
      have hn' : parent ≠ n := fun heq => absurd (heq ▸ hlater) (Nat.not_lt.2 hrank)
      refine ⟨parent, List.mem_cons_self, hlater.le.trans hrank, ?_, fun q hq _ => ?_⟩
      · rw [low_lowered, low_lowered, if_pos rfl, if_neg hn']
        exact (Nat.min_le_right _ _).trans hle
      · have hsorted := ht.pairwise_frames
        rw [hnodes, List.pairwise_cons, List.pairwise_cons] at hsorted
        rcases List.mem_cons.1 hq with rfl | hq
        · exact le_rfl
        · exact (hsorted.2.1 q hq).le
    · refine ⟨p, List.mem_of_ne_of_mem hp' (hnodes ▸ hp), hrank, low_lowered_mono hle fun heq => ?_,
        fun q hq => hmax q (hsub q hq)⟩
      subst heq
      exact covers_self ht hp hparent hrank hmax

/-- The lowlink of a root, which is its index, changes nothing for the node that led to it. -/
theorem low_innermostLowered_root (h : Lowlinks graph s) (ht : Tracks graph s t)
    (hframes : s.frames = ⟨node, []⟩ :: outer) (hlow : s.low node = s.rank node) :
    (({ s with frames := outer } : Search).innermostLowered (s.low node)).low n = s.low n := by
  cases outer with
  | nil => rfl
  | cons parent above =>
    rw [low_innermostLowered_cons rfl, low_lowered]
    split
    · rename_i heq
      have hmem : parent.node ∈ s.stack := ht.frame_on_stack (by simp [hframes])
      have hlt : s.rank parent.node < s.rank node :=
        ht.rank_lt_innermost (Tracks.map_node_of_cons hframes) _ List.mem_cons_self
      rw [← heq, hlow]
      exact Nat.min_eq_left ((h.low_le hmem).trans hlt.le)
    · rfl

/-- A completed component leaves the lowlinks below it as they were. -/
theorem completed (h : Lowlinks graph s) (ht : Tracks graph s t) {upper rest : List Nat}
    (hframes : s.frames = ⟨node, []⟩ :: outer) (hlow : s.low node = s.rank node)
    (hstack : s.stack = upper ++ node :: rest) (onCycle : Bool) :
    Lowlinks graph ((({ s with frames := outer } : Search).innermostLowered (s.low node)).placed
      (node :: upper.reverse) rest onCycle) := by
  have hnodes := Tracks.map_node_of_cons hframes
  have hrest := fun n => ht.mem_rest_iff hstack (m := n)
  have hsub : ∀ p, p ∈ outer.map Frame.node → p ∈ s.frames.map Frame.node := fun p hp =>
    hnodes ▸ List.mem_cons_of_mem _ hp
  have hlow' := fun n => h.low_innermostLowered_root ht hframes hlow (n := n)
  refine {
    low := fun n hn => ?low, examined := fun n hn m hm hex => ?examined
    returns := fun n hn hactive => ?returns, covered := fun n hn => ?covered
    leads := fun p hp n hn => h.leads p (hsub p hp) n ((hrest n).1 hn).1 }
  all_goals obtain ⟨hn', hlt⟩ := (hrest n).1 hn
  case low =>
    obtain ⟨m, hm, heq, hle, hreach⟩ := h.low n hn'
    exact ⟨m, (hrest m).2 ⟨hm, hle.trans_lt hlt⟩, (hlow' n).trans heq, hle, hreach⟩
  case examined =>
    have hle := h.examined n hn' m ((hrest m).1 hm).1 (hframes ▸ hex.of_close)
    exact (hlow' n).trans_le hle
  case returns =>
    have hne : n ≠ node := fun heq => absurd (heq ▸ hlt) (Nat.lt_irrefl _)
    refine (hlow' n).trans_lt (h.returns n hn' ?_)
    rw [hnodes]
    exact List.not_mem_cons_of_ne_of_not_mem hne hactive
  case covered =>
    -- what covers `n` was discovered before the root
    obtain ⟨p, hp, hrank, hle, hmax⟩ := h.covered n hn'
    have hne : p ≠ node := fun heq => absurd (heq ▸ hrank) (Nat.not_le.2 hlt)
    refine ⟨p, List.mem_of_ne_of_mem hne (hnodes ▸ hp), hrank, ?_, fun q hq => hmax q (hsub q hq)⟩
    exact (hlow' p).trans_le (hle.trans_eq (hlow' n).symm)

/-- Whatever move a step is, the lowlinks say the same again. -/
theorem move (h : Lowlinks graph s) (ht : Tracks graph s t) {s' : Search} {t' : Traversal}
    (hmove : Move graph s t s' t') : Lowlinks graph s' := by
  cases hmove with
  | @descend node successor later outer hframes hnew =>
    have hskipped := h.skipped ht hframes fun hmem => hnew (ht.stack_subset hmem)
    refine hskipped.opened ht (Tracks.map_node_of_cons hframes).symm ?_ hnew
    intro inner hinner
    cases hinner
    exact ht.edge_innermost hframes
  | tighten hframes hstack => exact h.tightened ht hframes hstack
  | skip hframes hplaced =>
    exact h.skipped ht hframes fun hmem => ((ht.mem_stack _).1 hmem).2 hplaced
  | retreat hframes hlow => exact h.retreated ht hframes hlow
  | complete hframes hlow hstack => exact h.completed ht hframes hlow hstack _

/-! ## Components -/

section Root

variable (h : Lowlinks graph s) (ht : Tracks graph s t)
  (hframes : s.frames = ⟨node, []⟩ :: outer) (hlow : s.low node = s.rank node)

include h ht hframes hlow

theorem root_le_low (hn : n ∈ s.stack) (hle : s.rank node ≤ s.rank n) : s.rank node ≤ s.low n := by
  obtain ⟨p, hp, -, hlowp, hmax⟩ := h.covered n hn
  have hnodes := Tracks.map_node_of_cons hframes
  rw [hnodes] at hp hmax
  have hmax := hmax node List.mem_cons_self hle
  rcases List.mem_cons.1 hp with rfl | hp
  · exact hlow ▸ hlowp
  · exact absurd (ht.rank_lt_innermost hnodes p hp) (Nat.not_lt.2 hmax)

/-- Everything on the stack down to a root reaches it. -/
theorem reaches_root (hn : n ∈ s.stack) (hle : s.rank node ≤ s.rank n) : graph.Reaches n node := by
  induction hrank : s.rank n using Nat.strong_induction_on generalizing n with
  | _ i ih =>
    by_cases hne : n = node
    · rw [hne]
    · have hactive : n ∉ s.frames.map Frame.node := by
        have hnodes := Tracks.map_node_of_cons hframes
        rw [hnodes, List.mem_cons, not_or]
        exact ⟨hne, fun hmem => absurd (ht.rank_lt_innermost hnodes n hmem) (Nat.not_lt.2 hle)⟩
      obtain ⟨m, hm, heq, -, hreach⟩ := h.low n hn
      have hlt : s.rank m < i := hrank ▸ heq ▸ h.returns n hn hactive
      have hle' : s.rank node ≤ s.rank m := heq ▸ h.root_le_low ht hframes hlow hn hle
      exact hreach.trans (ih _ hlt hm hle' rfl)

/-- No edge leaves the part of the stack down to a root, except to nodes that are not on it. -/
theorem edge_root (hn : n ∈ s.stack) (hle : s.rank node ≤ s.rank n) (hedge : graph.Edge n m) :
    (m ∈ s.stack ∧ s.rank node ≤ s.rank m) ∨ m ∈ s.order := by
  -- the frames outside the root are of nodes discovered before it, so none of them is that of `n`
  have hex : graph.Examined s.frames n m := by
    refine ⟨hedge, fun frame hframe hnode => ?_⟩
    rw [hframes] at hframe
    rcases List.mem_cons.1 hframe with rfl | hframe
    · exact ⟨graph.next n, List.append_nil _, hedge⟩
    · have hlt := ht.rank_lt_innermost (Tracks.map_node_of_cons hframes) _
        (List.mem_map_of_mem hframe)
      exact absurd (hnode ▸ hlt) (Nat.not_lt.2 hle)
  have hdisc := ht.examined n (ht.stack_subset hn) m hex
  by_cases hm : m ∈ s.stack
  · exact .inl ⟨hm, (h.root_le_low ht hframes hlow hn hle).trans (h.examined n hn m hm hex)⟩
  · right
    by_contra hplaced
    exact hm ((ht.mem_stack m).2 ⟨hdisc, hplaced⟩)

/-- The part of the stack down to a root is the component of the root. -/
theorem mutual_root_iff (hplaced : ∀ u v, u ∈ s.order → graph.Edge u v → v ∈ s.order) :
    graph.Mutual node n ↔ n ∈ s.stack ∧ s.rank node ≤ s.rank n := by
  have hroot : node ∈ s.frames.map Frame.node := by simp [hframes]
  have hnode : node ∈ s.stack := ht.innermost_on_stack hframes
  constructor
  · intro hmutual
    have hall : (n ∈ s.stack ∧ s.rank node ≤ s.rank n) ∨ n ∈ s.order := by
      refine hmutual.1.mem_of_closed
        (fun n => (n ∈ s.stack ∧ s.rank node ≤ s.rank n) ∨ n ∈ s.order) ?_ (.inl ⟨hnode, le_rfl⟩)
      rintro u v (⟨hu, hle⟩ | hu) hedge
      · exact h.edge_root ht hframes hlow hu hle hedge
      · exact .inr (hplaced u v hu hedge)
    refine hall.resolve_right fun hn => ?_
    exact ((ht.mem_stack node).1 hnode).2 (hmutual.2.mem_of_closed (· ∈ s.order) hplaced hn)
  · rintro ⟨hn, hle⟩
    exact ⟨h.leads node hroot n hn hle, h.reaches_root ht hframes hlow hn hle⟩

end Root

end Lowlinks

end Search

end FuzzyHierarchy
