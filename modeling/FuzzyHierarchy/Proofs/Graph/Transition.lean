import FuzzyHierarchy.Graph.Search
import FuzzyHierarchy.Proofs.Graph.Traversal
import Mathlib.Tactic.Tauto

/-
The transitions of the search, each with the state that it leads to and with what it adds to the
record of the traversal. A step descends to a new successor, tightens the lowlink by a successor on
the stack, skips a successor of a completed component, retreats from an exhausted node, or completes
the component that the exhausted node is the root of.
-/

namespace FuzzyHierarchy

namespace Search

variable {graph : Graph} {s : Search} {node bound n : Nat}

/-- The index of a node. -/
def rank (s : Search) (node : Nat) : Nat := s.index[node]?.getD 0

/-- The lowlink of a node. -/
def low (s : Search) (node : Nat) : Nat := s.lowlink[node]?.getD 0

/-! ## The states that operations lead to -/

/-- The state with `node` discovered. -/
def opened (s : Search) (graph : Graph) (node : Nat) : Search :=
  { s with
    index := s.index.insert node s.nextIndex
    lowlink := s.lowlink.insert node s.nextIndex
    nextIndex := s.nextIndex + 1
    stack := node :: s.stack
    onStack := s.onStack.insert node
    frames := ⟨node, graph.next node⟩ :: s.frames }

/-- The state with the lowlink of `node` at most `bound`. -/
def lowered (s : Search) (node bound : Nat) : Search :=
  { s with lowlink := s.lowlink.insert node (min (s.low node) bound) }

/-- The state with the lowlink of the innermost node under examination at most `bound`. -/
def innermostLowered (s : Search) (bound : Nat) : Search :=
  { s with
    lowlink :=
      match s.frames with
      | [] => s.lowlink
      | frame :: _ => (s.lowered frame.node bound).lowlink }

/-- The state with a component moved from the stack, of which `rest` is left, to the order. -/
def placed (s : Search) (component rest : List Nat) (onCycle : Bool) : Search :=
  { s with
    stack := rest
    onStack := component.foldl (·.erase ·) s.onStack
    order := s.order ++ component
    cyclic := if onCycle then s.cyclic ++ component else s.cyclic }

theorem indexOf_eq_ok (h : s.index.contains node = true) : s.indexOf node = .ok (s.rank node) := by
  rw [Std.TreeMap.contains_eq_isSome_getElem?] at h
  obtain ⟨i, hi⟩ := Option.isSome_iff_exists.1 h
  simp [indexOf, rank, hi]

theorem lowlinkOf_eq_ok (h : s.lowlink.contains node = true) :
    s.lowlinkOf node = .ok (s.low node) := by
  rw [Std.TreeMap.contains_eq_isSome_getElem?] at h
  obtain ⟨i, hi⟩ := Option.isSome_iff_exists.1 h
  simp [lowlinkOf, low, hi]

theorem discover_eq_ok (h : node < graph.size) :
    s.discover graph node = .ok (s.opened graph node) := by
  rw [discover, Graph.successorsOf_eq_ok h]
  rfl

theorem lower_eq_lowered (h : s.lowlink.contains node = true) :
    s.lower node bound = .ok (s.lowered node bound) := by
  rw [lower, lowlinkOf_eq_ok h]
  rfl

theorem lowerInnermost_eq (h : ∀ frame ∈ s.frames, s.lowlink.contains frame.node = true) :
    s.lowerInnermost bound = .ok (s.innermostLowered bound) := by
  obtain ⟨index, lowlink, nextIndex, stack, onStack, frames, order, cyclic⟩ := s
  cases frames with
  | nil => rfl
  | cons frame outer => exact lower_eq_lowered (h frame List.mem_cons_self)

/-- Taking nodes off a stack down to `root` gives them from `root` up. -/
theorem unwind_append {root : Nat} {rest : List Nat} : ∀ (upper taken : List Nat), root ∉ upper →
    unwind root (upper ++ root :: rest) taken = .ok (root :: upper.reverse ++ taken, rest)
  | [], taken, _ => by simp [unwind]
  | u :: upper, taken, h => by
    rw [List.mem_cons, not_or] at h
    rw [List.cons_append, unwind, if_neg (Ne.symm h.1), unwind_append upper (u :: taken) h.2]
    simp

theorem completeComponent_eq_placed {upper rest : List Nat}
    (hstack : s.stack = upper ++ node :: rest) (hnot : node ∉ upper) (hlt : node < graph.size) :
    s.completeComponent graph node = .ok (s.placed (node :: upper.reverse) rest
      ((node :: upper.reverse).length > 1 || (graph.next node).contains node)) := by
  rw [completeComponent, hstack, unwind_append upper [] hnot, Graph.successorsOf_eq_ok hlt,
    List.append_nil]
  rfl

theorem examine_new {successor : Nat} (hnew : s.index.contains successor = false)
    (hlt : successor < graph.size) :
    s.examine graph node successor = .ok (s.opened graph successor) := by
  rw [examine, if_pos (by simp [hnew]), discover_eq_ok hlt]

theorem examine_onStack {successor : Nat} (hindex : s.index.contains successor = true)
    (hstack : s.onStack.contains successor = true) (hlow : s.lowlink.contains node = true) :
    s.examine graph node successor = .ok (s.lowered node (s.rank successor)) := by
  rw [examine, if_neg (by simp [hindex]), if_pos hstack, indexOf_eq_ok hindex]
  exact lower_eq_lowered hlow

theorem examine_placed {successor : Nat} (hindex : s.index.contains successor = true)
    (hstack : ¬ s.onStack.contains successor = true) :
    s.examine graph node successor = .ok s := by
  rw [examine, if_neg (by simp [hindex]), if_neg hstack]

theorem retire_eq (graph : Graph) (hindex : s.index.contains node = true)
    (hlow : s.lowlink.contains node = true)
    (hframes : ∀ frame ∈ s.frames, s.lowlink.contains frame.node = true) :
    s.retire graph node =
      if s.low node = s.rank node then
        (s.innermostLowered (s.low node)).completeComponent graph node
      else
        .ok (s.innermostLowered (s.low node)) := by
  have hrank : (s.innermostLowered (s.low node)).indexOf node = .ok (s.rank node) :=
    indexOf_eq_ok hindex
  simp only [retire, lowlinkOf_eq_ok hlow, lowerInnermost_eq hframes, hrank, bind, Except.bind]
  rfl

/-! ## What the operations change -/

@[simp] theorem rank_opened :
    (s.opened graph node).rank n = if node = n then s.nextIndex else s.rank n := by
  simp only [rank, opened, Std.TreeMap.getElem?_insert, Nat.compare_eq_eq]
  split <;> rfl

@[simp] theorem low_opened :
    (s.opened graph node).low n = if node = n then s.nextIndex else s.low n := by
  simp only [low, opened, Std.TreeMap.getElem?_insert, Nat.compare_eq_eq]
  split <;> rfl

@[simp] theorem low_lowered :
    (s.lowered node bound).low n = if node = n then min (s.low node) bound else s.low n := by
  simp only [low, lowered, Std.TreeMap.getElem?_insert, Nat.compare_eq_eq]
  split <;> rfl

@[simp] theorem rank_innermostLowered : (s.innermostLowered bound).rank n = s.rank n := rfl

theorem low_innermostLowered_cons {frame : Frame} {outer : List Frame}
    (hframes : s.frames = frame :: outer) :
    (s.innermostLowered bound).low n = (s.lowered frame.node bound).low n := by
  simp only [low, innermostLowered, hframes]

theorem low_lowered_le : (s.lowered node bound).low n ≤ s.low n := by
  rw [low_lowered]
  split
  · rename_i heq
    exact heq ▸ Nat.min_le_left _ _
  · exact Nat.le_refl _

/-- Lowering the lowlink of a node keeps what has a lowlink no greater than the node's own. -/
theorem low_lowered_mono {p : Nat} (hle : s.low p ≤ s.low n) (hself : node = n → p = n) :
    (s.lowered node bound).low p ≤ (s.lowered node bound).low n := by
  by_cases hn : node = n
  · rw [hself hn]
  · rw [low_lowered (n := n), if_neg hn]
    exact Nat.le_trans low_lowered_le hle

theorem order_placed (component rest : List Nat) (onCycle : Bool) :
    (s.placed component rest onCycle).order.toList = s.order.toList ++ component :=
  Array.toList_appendList

theorem cyclic_placed (component rest : List Nat) (onCycle : Bool) :
    (s.placed component rest onCycle).cyclic.toList =
      s.cyclic.toList ++ if onCycle then component else [] := by
  cases onCycle with
  | true => exact Array.toList_appendList
  | false => exact (List.append_nil _).symm

theorem mem_order_placed (component rest : List Nat) (onCycle : Bool) :
    n ∈ (s.placed component rest onCycle).order ↔ n ∈ s.order ∨ n ∈ component := by
  rw [← Array.mem_toList_iff, order_placed, List.mem_append, Array.mem_toList_iff]

theorem contains_foldl_erase (component : List Nat) : ∀ onStack : Std.TreeSet Nat,
    (component.foldl (·.erase ·) onStack).contains n = true ↔
      n ∉ component ∧ onStack.contains n = true := by
  induction component with
  | nil => simp
  | cons m component ih =>
    intro onStack
    rw [List.foldl_cons, ih]
    simp only [Std.TreeSet.contains_erase, Bool.and_eq_true, bne_iff_ne, ne_eq, Nat.compare_eq_eq,
      List.mem_cons, not_or, eq_comm (a := m)]
    tauto

/-! ## Steps -/

/-- What one step makes of a state, beside what it adds to the traversal. -/
inductive Move (graph : Graph) (s : Search) (t : Traversal) : Search → Traversal → Prop
  | descend {node successor : Nat} {later : List Nat} {outer : List Frame}
      (hframes : s.frames = ⟨node, successor :: later⟩ :: outer)
      (hnew : successor ∉ t.discovered) :
      Move graph s t ({ s with frames := ⟨node, later⟩ :: outer }.opened graph successor)
        (t.discover successor)
  | tighten {node successor : Nat} {later : List Nat} {outer : List Frame}
      (hframes : s.frames = ⟨node, successor :: later⟩ :: outer)
      (hstack : successor ∈ s.stack) :
      Move graph s t
        ({ s with frames := ⟨node, later⟩ :: outer }.lowered node (s.rank successor)) t
  | skip {node successor : Nat} {later : List Nat} {outer : List Frame}
      (hframes : s.frames = ⟨node, successor :: later⟩ :: outer)
      (hplaced : successor ∈ s.order) :
      Move graph s t { s with frames := ⟨node, later⟩ :: outer } t
  | retreat {node : Nat} {outer : List Frame} (hframes : s.frames = ⟨node, []⟩ :: outer)
      (hlow : s.low node ≠ s.rank node) :
      Move graph s t ({ s with frames := outer }.innermostLowered (s.low node)) (t.finish node)
  | complete {node : Nat} {outer : List Frame} {upper rest : List Nat}
      (hframes : s.frames = ⟨node, []⟩ :: outer) (hlow : s.low node = s.rank node)
      (hstack : s.stack = upper ++ node :: rest) :
      Move graph s t
        (({ s with frames := outer }.innermostLowered (s.low node)).placed
          (node :: upper.reverse) rest
          ((node :: upper.reverse).length > 1 || (graph.next node).contains node))
        (t.finish node)

end Search

end FuzzyHierarchy
