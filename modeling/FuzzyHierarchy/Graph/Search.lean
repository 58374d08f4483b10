import Std.Data.TreeMap
import Std.Data.TreeSet
import FuzzyHierarchy.Graph.Basic

/-
Depth-first search for strongly connected components, with an explicit stack of frames.

A frame is a node whose successors are being examined. A node gets the next free index when it is
discovered, and its lowlink is the least index that the search has seen it come back to. A node
stays on the stack until its component is complete, which shows when its last successor is examined
and its lowlink is still its own index: everything on the stack down to the node is then one
component. Components go into the order as they are completed, so a component comes after all that
its members lead to, and the members of one component stand in the order of discovery.

`step` does one thing: it examines one successor or retires one frame. Each step makes `work`
smaller, so the search ends.
-/

namespace FuzzyHierarchy

/-- A node under examination, with the successors that are still to be examined. -/
structure Frame where
  node : Nat
  unexamined : List Nat
  deriving DecidableEq, Repr

/-- A state of the search. -/
structure Search where
  /-- The index of each discovered node. -/
  index : Std.TreeMap Nat Nat := {}
  /-- The lowlink of each discovered node. -/
  lowlink : Std.TreeMap Nat Nat := {}
  /-- The index of the node that is discovered next. -/
  nextIndex : Nat := 0
  /-- The discovered nodes whose components are not complete, the last discovered first. -/
  stack : List Nat := []
  /-- The nodes of the stack as a set. -/
  onStack : Std.TreeSet Nat := {}
  /-- The nodes under examination, the innermost first. -/
  frames : List Frame := []
  /-- The nodes of the completed components. -/
  order : Array Nat := #[]
  /-- Those of them that lie on a cycle. -/
  cyclic : Array Nat := #[]

namespace Search

/-! ## One step -/

/-- The index of a discovered node. -/
def indexOf (search : Search) (node : Nat) : Except Fault Nat :=
  match search.index[node]? with
  | some index => .ok index
  | none => .error (.undiscovered node)

/-- The lowlink of a discovered node. -/
def lowlinkOf (search : Search) (node : Nat) : Except Fault Nat :=
  match search.lowlink[node]? with
  | some lowlink => .ok lowlink
  | none => .error (.undiscovered node)

/-- Gives a node the next index and opens a frame for it. -/
def discover (search : Search) (graph : Graph) (node : Nat) : Except Fault Search := do
  let successors ← graph.successorsOf node
  return { search with
    index := search.index.insert node search.nextIndex
    lowlink := search.lowlink.insert node search.nextIndex
    nextIndex := search.nextIndex + 1
    stack := node :: search.stack
    onStack := search.onStack.insert node
    frames := ⟨node, successors⟩ :: search.frames }

/-- Lowers the lowlink of a node to `bound`. -/
def lower (search : Search) (node bound : Nat) : Except Fault Search := do
  let lowlink ← search.lowlinkOf node
  return { search with lowlink := search.lowlink.insert node (min lowlink bound) }

/-- Looks at a successor of a node: a new one is discovered, one on the stack lowers the lowlink of
the node, and one of a completed component changes nothing. -/
def examine (search : Search) (graph : Graph) (node successor : Nat) : Except Fault Search :=
  if !search.index.contains successor then
    search.discover graph successor
  else if search.onStack.contains successor then do
    search.lower node (← search.indexOf successor)
  else
    .ok search

/-- Takes nodes off a stack down to `root`. Gives them from `root` up, before those in `taken`, and
what is left of the stack. -/
def unwind (root : Nat) : (stack taken : List Nat) → Except Fault (List Nat × List Nat)
  | [], _ => .error (.emptyStack root)
  | node :: rest, taken =>
    if node = root then .ok (node :: taken, rest) else unwind root rest (node :: taken)

/-- Takes the component of `root` off the stack and completes it. It lies on a cycle if it has
several members or `root` is its own successor. -/
def completeComponent (search : Search) (graph : Graph) (root : Nat) : Except Fault Search := do
  let (component, rest) ← unwind root search.stack []
  let successors ← graph.successorsOf root
  let onCycle := component.length > 1 || successors.contains root
  return { search with
    stack := rest
    onStack := component.foldl (·.erase ·) search.onStack
    order := search.order ++ component
    cyclic := if onCycle then search.cyclic ++ component else search.cyclic }

/-- Lowers the lowlink of the innermost node under examination, if there is one. -/
def lowerInnermost (search : Search) (bound : Nat) : Except Fault Search :=
  match search.frames with
  | [] => .ok search
  | frame :: _ => search.lower frame.node bound

/-- Ends the examination of a node, whose frame is closed already: the node that led to it takes
over its lowlink, and a component that it is the root of is completed. -/
def retire (search : Search) (graph : Graph) (node : Nat) : Except Fault Search := do
  let lowlink ← search.lowlinkOf node
  let search ← search.lowerInnermost lowlink
  if lowlink = (← search.indexOf node) then search.completeComponent graph node else return search

/-- Examines one successor of the innermost node under examination, or retires that node. -/
def step (search : Search) (graph : Graph) : Except Fault Search :=
  match search.frames with
  | [] => .ok search
  | ⟨node, successor :: later⟩ :: outer =>
    { search with frames := ⟨node, later⟩ :: outer }.examine graph node successor
  | ⟨node, []⟩ :: outer => { search with frames := outer }.retire graph node

/-! ## The search ends -/

/-- The sum of a cost over the nodes below `n`. -/
def totalBelow (cost : Nat → Nat) : (n : Nat) → Nat
  | 0 => 0
  | n + 1 => totalBelow cost n + cost n

/-- The steps that the frames are good for: one per unexamined successor and one to retire. -/
def frameWork : List Frame → Nat
  | [] => 0
  | frame :: outer => frame.unexamined.length + 1 + frameWork outer

/-- The steps that a node is good for from before its discovery. -/
def nodeWork (search : Search) (graph : Graph) (node : Nat) : Nat :=
  if search.index.contains node then 0 else graph.degree node + 2

/-- The steps that are at most left, counting a discovery as one more step. -/
def work (search : Search) (graph : Graph) : Nat :=
  totalBelow (search.nodeWork graph) graph.size + frameWork search.frames

/-- A total falls by what one of its terms falls. -/
theorem totalBelow_of_eq_except {f g : Nat → Nat} {n node c : Nat} (hlt : node < n)
    (hnode : f node = g node + c) (hother : ∀ other, other ≠ node → f other = g other) :
    totalBelow f n = totalBelow g n + c := by
  have hsame : ∀ m, m ≤ node → totalBelow f m = totalBelow g m := by
    intro m hm
    induction m with
    | zero => rfl
    | succ m ih => rw [totalBelow, totalBelow, ih (by omega), hother m (by omega)]
  induction n with
  | zero => omega
  | succ n ih =>
    rw [totalBelow, totalBelow]
    by_cases hn : node = n
    · rw [hsame n (by omega), ← hn, hnode]
      omega
    · rw [ih (by omega), hother n (by omega)]
      omega

theorem work_discover {search next : Search} {graph : Graph} {node : Nat}
    (h : search.discover graph node = .ok next) (hnew : search.index.contains node = false) :
    next.work graph + 1 = search.work graph := by
  obtain ⟨successors, hs, h⟩ := exists_of_bind_eq_ok h
  unfold Graph.successorsOf at hs
  split at hs
  case h_2 => cases hs
  rename_i found hfound
  cases hs
  have hindex : next.index = search.index.insert node search.nextIndex := by cases h; rfl
  have hframes : next.frames = ⟨node, successors⟩ :: search.frames := by cases h; rfl
  have hlt : node < graph.size := (Array.getElem?_eq_some_iff.mp hfound).1
  have hdegree : graph.degree node = successors.length := by simp [Graph.degree, hfound]
  have hnode : search.nodeWork graph node = next.nodeWork graph node + (graph.degree node + 2) := by
    simp [nodeWork, hindex, hnew]
  have hother : ∀ other, other ≠ node →
      search.nodeWork graph other = next.nodeWork graph other := by
    intro other hne
    simp only [nodeWork, hindex, Std.TreeMap.contains_insert, Bool.or_eq_true, beq_iff_eq,
      Nat.compare_eq_eq]
    simp [Ne.symm hne]
  simp only [work, hframes, frameWork, totalBelow_of_eq_except hlt hnode hother]
  omega

/-- The work depends on the discovered nodes and the frames alone. -/
theorem work_congr {search next : Search} (graph : Graph) (hindex : next.index = search.index)
    (hframes : next.frames = search.frames) : next.work graph = search.work graph := by
  have hnode : next.nodeWork graph = search.nodeWork graph := by
    funext node
    rw [nodeWork, nodeWork, hindex]
  rw [work, work, hnode, hframes]

theorem lower_eq_ok {search next : Search} {node bound : Nat}
    (h : search.lower node bound = .ok next) :
    next.index = search.index ∧ next.frames = search.frames := by
  obtain ⟨_, -, h⟩ := exists_of_bind_eq_ok h
  cases h
  exact ⟨rfl, rfl⟩

theorem lowerInnermost_eq_ok {search next : Search} {bound : Nat}
    (h : search.lowerInnermost bound = .ok next) :
    next.index = search.index ∧ next.frames = search.frames := by
  unfold lowerInnermost at h
  split at h
  · cases h
    exact ⟨rfl, rfl⟩
  · exact lower_eq_ok h

theorem completeComponent_eq_ok {search next : Search} {graph : Graph} {root : Nat}
    (h : search.completeComponent graph root = .ok next) :
    next.index = search.index ∧ next.frames = search.frames := by
  obtain ⟨_, -, h⟩ := exists_of_bind_eq_ok h
  obtain ⟨_, -, h⟩ := exists_of_bind_eq_ok h
  cases h
  exact ⟨rfl, rfl⟩

theorem work_examine_le {search next : Search} {graph : Graph} {node successor : Nat}
    (h : search.examine graph node successor = .ok next) : next.work graph ≤ search.work graph := by
  unfold examine at h
  split at h
  · rename_i hnew
    have := work_discover h (by simpa using hnew)
    omega
  · split at h
    · obtain ⟨_, -, h⟩ := exists_of_bind_eq_ok h
      obtain ⟨hindex, hframes⟩ := lower_eq_ok h
      exact Nat.le_of_eq (work_congr graph hindex hframes)
    · cases h
      exact Nat.le_refl _

theorem retire_eq_ok {search next : Search} {graph : Graph} {node : Nat}
    (h : search.retire graph node = .ok next) :
    next.index = search.index ∧ next.frames = search.frames := by
  obtain ⟨_, -, h⟩ := exists_of_bind_eq_ok h
  obtain ⟨_, hlowered, h⟩ := exists_of_bind_eq_ok h
  have hsame := lowerInnermost_eq_ok hlowered
  obtain ⟨_, -, h⟩ := exists_of_bind_eq_ok h
  split at h
  · obtain ⟨hindex, hframes⟩ := completeComponent_eq_ok h
    exact ⟨hindex.trans hsame.1, hframes.trans hsame.2⟩
  · cases h
    exact hsame

/-- A step that has a frame to work on leaves less to do. -/
theorem work_step_lt {search next : Search} {graph : Graph} (hframes : search.frames ≠ [])
    (h : search.step graph = .ok next) : next.work graph < search.work graph := by
  unfold step at h
  split at h
  · contradiction
  · rename_i node successor later outer hsplit
    have hless : ({ search with frames := ⟨node, later⟩ :: outer } : Search).work graph + 1 =
        search.work graph := by
      simp only [work, hsplit, frameWork, List.length_cons]
      change totalBelow (search.nodeWork graph) graph.size + _ + 1 = _
      omega
    have := work_examine_le h
    omega
  · rename_i node outer hsplit
    obtain ⟨hindex, hframes⟩ := retire_eq_ok h
    rw [work_congr graph hindex hframes]
    simp only [work, hsplit, frameWork]
    change totalBelow (search.nodeWork graph) graph.size + _ < _
    omega

/-! ## The whole search -/

/-- Steps until no node is under examination. -/
def run (search : Search) (graph : Graph) : Except Fault Search :=
  if _ : search.frames = [] then
    .ok search
  else
    match _ : search.step graph with
    | .error fault => .error fault
    | .ok next => next.run graph
termination_by search.work graph
decreasing_by exact work_step_lt (by assumption) (by assumption)

/-- Searches from `root`, unless an earlier root has led to it. -/
def explore (graph : Graph) (search : Search) (root : Nat) : Except Fault Search :=
  if search.index.contains root then
    .ok search
  else do
    let search ← search.discover graph root
    search.run graph

end Search

/-- Searches the whole graph, with its nodes as roots in increasing order. -/
def Graph.search (graph : Graph) : Except Fault Search :=
  (List.range graph.size).foldlM (Search.explore graph) {}

end FuzzyHierarchy
