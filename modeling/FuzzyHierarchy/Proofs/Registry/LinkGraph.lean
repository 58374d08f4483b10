import FuzzyHierarchy.Schedule
import FuzzyHierarchy.Proofs.Graph.ComponentSearch
import FuzzyHierarchy.Proofs.Registry.References

/-
The links between the classes of a registry: from a class to its superclass, and from a class to the
target of each of its relations. The graph that is searched for a schedule is the graph of these
links, with the places of the classes as nodes, so a path of links is a path in the graph.
-/

namespace FuzzyHierarchy

namespace Graph

variable {graph other : Graph} {u v : Nat}

theorem ext_next (hsize : graph.size = other.size)
    (hnext : ∀ n < graph.size, graph.next n = other.next n) : graph = other := by
  obtain ⟨successors⟩ := graph
  obtain ⟨others⟩ := other
  congr 1
  refine Array.ext hsize fun n hn hn' => ?_
  simpa [next, hn, hn'] using hnext n hn

theorem addEdge_eq_ok (hu : u < graph.size) :
    ∃ larger, graph.addEdge u v = .ok larger ∧ larger.size = graph.size ∧
      ∀ n, larger.next n = graph.next n ++ if n = u then [v] else [] := by
  unfold size at hu
  refine ⟨⟨graph.successors.set! u (graph.next u ++ [v])⟩, ?_, by simp [size], fun n => ?_⟩
  · simp [addEdge, next, hu]
  by_cases hn : n = u
  · simp [next, hn, hu]
  · simp [next, hn, Ne.symm hn]

end Graph

namespace Registry

variable {registry : Registry} {cls : FuzzyClass} {a b : ClassId} {i j : Nat}

/-- The classes that a class refers to: its superclass, then the targets of its relations in the
order of its constraints. -/
def linksOf (registry : Registry) (cls : FuzzyClass) : List ClassId :=
  cls.superclass?.toList ++
    cls.constraints.toList.filterMap fun constraint => constraint.target?.bind registry.idOf?

/-- The class `b` is the superclass of the class `a`, or the target of one of its relations. -/
def Links (registry : Registry) (a b : ClassId) : Prop :=
  ∃ cls, registry.get? a = some cls ∧ b ∈ registry.linksOf cls

/-- A path of links of any length from `a` to `b`. -/
def LeadsTo (registry : Registry) : ClassId → ClassId → Prop := Relation.ReflTransGen registry.Links

/-- A path of at least one link from a class back to itself. -/
def LeadsBack (registry : Registry) (a : ClassId) : Prop := Relation.TransGen registry.Links a a

/-- The graph of the links, on the places of the classes. -/
def linkGraph (registry : Registry) : Graph :=
  ⟨registry.slots.map fun cls => (registry.linksOf cls).filterMap ClassId.index?⟩

theorem size_linkGraph : registry.linkGraph.size = registry.toList.length := by
  simp [linkGraph, Graph.size, toList]

theorem next_linkGraph (hcls : registry.toList[i]? = some cls) :
    registry.linkGraph.next i = (registry.linksOf cls).filterMap ClassId.index? := by
  have hget : registry.slots[i]? = some cls := by simpa [toList] using hcls
  simp [linkGraph, Graph.next, hget]

/-! ## Links and edges -/

theorem links_entry_iff_edge :
    registry.Links (.entry i) (.entry j) ↔ registry.linkGraph.Edge i j := by
  rw [Links, Graph.Edge]
  simp only [get?_entry]
  cases hcls : registry.toList[i]? with
  | none =>
    rw [Graph.next_eq_nil (size_linkGraph.trans_le (List.getElem?_eq_none_iff.1 hcls))]
    simp
  | some cls =>
    rw [next_linkGraph hcls, List.mem_filterMap]
    constructor
    · rintro ⟨_, ⟨rfl⟩, hmem⟩
      exact ⟨_, hmem, rfl⟩
    · rintro ⟨id, hmem, hindex⟩
      cases id with
      | entry index => cases hindex; exact ⟨cls, rfl, hmem⟩
      | null => cases hindex

/-- Links are between registered classes. -/
theorem WellFormed.exists_entry_of_links (h : registry.WellFormed) (hlinks : registry.Links a b) :
    ∃ i j, a = .entry i ∧ b = .entry j ∧ j < registry.toList.length := by
  obtain ⟨cls, hget, hmem⟩ := hlinks
  obtain ⟨i, rfl, hi⟩ := get?_eq_some_iff.1 hget
  rcases List.mem_append.1 hmem with hsuper | htarget
  · obtain ⟨j, hj, rfl⟩ := h.superclass_earlier i cls b hget (by simpa using hsuper)
    obtain ⟨hlt, -⟩ := List.getElem?_eq_some_iff.1 hi
    exact ⟨i, j, rfl, rfl, Nat.lt_trans hj hlt⟩
  · obtain ⟨constraint, -, hid⟩ := List.mem_filterMap.1 htarget
    obtain ⟨target, -, hid⟩ := Option.bind_eq_some_iff.1 hid
    obtain ⟨found, hfound, -⟩ := h.idOf?_eq_some_iff.1 hid
    obtain ⟨j, rfl, hj⟩ := get?_eq_some_iff.1 hfound
    obtain ⟨hlt, -⟩ := List.getElem?_eq_some_iff.1 hj
    exact ⟨i, j, rfl, rfl, hlt⟩

theorem WellFormed.closed_linkGraph (h : registry.WellFormed) : registry.linkGraph.Closed := by
  intro u v hedge
  obtain ⟨i, j, -, hv, hlt⟩ := h.exists_entry_of_links (links_entry_iff_edge.2 hedge)
  cases hv
  exact hlt.trans_eq size_linkGraph.symm

theorem WellFormed.edge_of_links (h : registry.WellFormed) (hlinks : registry.Links a b) :
    registry.linkGraph.Edge (a.index?.getD 0) (b.index?.getD 0) := by
  obtain ⟨i, j, rfl, rfl, -⟩ := h.exists_entry_of_links hlinks
  exact links_entry_iff_edge.1 hlinks

theorem WellFormed.leadsTo_iff_reaches (h : registry.WellFormed) :
    registry.LeadsTo (.entry i) (.entry j) ↔ registry.linkGraph.Reaches i j := by
  constructor
  · intro hpath
    exact Relation.ReflTransGen.lift (fun id : ClassId => id.index?.getD 0)
      (fun _ _ => h.edge_of_links) _ _ hpath
  · intro hpath
    exact Relation.ReflTransGen.lift ClassId.entry (fun _ _ => links_entry_iff_edge.2) _ _ hpath

theorem WellFormed.leadsBack_iff_onCycle (h : registry.WellFormed) :
    registry.LeadsBack (.entry i) ↔ registry.linkGraph.OnCycle i := by
  constructor
  · intro hpath
    exact Relation.TransGen.lift (fun id : ClassId => id.index?.getD 0)
      (fun _ _ => h.edge_of_links) _ _ hpath
  · intro hpath
    exact Relation.TransGen.lift ClassId.entry (fun _ _ => links_entry_iff_edge.2) _ _ hpath

theorem LeadsTo.holds_left (h : registry.LeadsTo a b) (hne : a ≠ b) : registry.holds a = true := by
  obtain heq | ⟨c, ⟨cls, hget, -⟩, -⟩ := Relation.ReflTransGen.cases_head h
  · exact absurd heq hne
  · exact holds_iff.2 ⟨cls, hget⟩

theorem LeadsTo.holds_right (h : registry.LeadsTo a b) (hwf : registry.WellFormed) (hne : a ≠ b) :
    registry.holds b = true := by
  obtain heq | ⟨c, -, hlinks⟩ := Relation.ReflTransGen.cases_tail h
  · exact absurd heq.symm hne
  · obtain ⟨i, j, -, rfl, hj⟩ := hwf.exists_entry_of_links hlinks
    exact holds_entry_iff.2 hj

theorem LeadsBack.holds (h : registry.LeadsBack a) : registry.holds a = true := by
  obtain ⟨b, ⟨cls, hget, -⟩, -⟩ := Relation.TransGen.head'_iff.1 h
  exact holds_iff.2 ⟨cls, hget⟩

/-! ## The searched graph -/

/-- The place of the target of a dependency. -/
def targetIndex? (registry : Registry) (dependency : Dependency) : Option Nat :=
  (registry.idOf? dependency.target).bind ClassId.index?

theorem filterMap_linksOf : (registry.linksOf cls).filterMap ClassId.index? =
    cls.superclass?.toList.filterMap ClassId.index? ++
      cls.dependencies.filterMap registry.targetIndex? := by
  rw [linksOf, List.filterMap_append, FuzzyClass.dependencies, List.filterMap_filterMap,
    List.filterMap_filterMap]
  congr 2
  funext constraint
  rw [Constraint.dependency?]
  cases constraint.target? <;> rfl

theorem placeOf?_eq (registry : Registry) (id : ClassId) :
    registry.placeOf? id = registry.ids.findIdx? (· == id) := by
  obtain ⟨slots, ⟨rows⟩⟩ := registry
  rw [placeOf?, ids, List.findIdx?_map, List.findIdx?_toArray]
  rfl

theorem WellFormed.placeOf?_entry (h : registry.WellFormed) (hi : i < registry.toList.length) :
    registry.placeOf? (.entry i) = some i := by
  rw [placeOf?_eq, h.ids_eq, List.findIdx?_eq_some_iff_getElem]
  refine ⟨by simpa using hi, by simp, fun j hj => ?_⟩
  simpa using Nat.ne_of_lt hj

theorem WellFormed.idAt?_eq_some (h : registry.WellFormed) (hi : i < registry.toList.length) :
    registry.idAt? i = some (.entry i) := by
  have hid : registry.idAt? i = registry.ids[i]? := by simp [idAt?, ids]
  simp [hid, h.ids_eq, hi]

theorem WellFormed.nodeOf_eq_ok (h : registry.WellFormed) {dependency : Dependency} {name : String}
    (hid : registry.idOf? name = some (.entry i)) : registry.nodeOf dependency name = .ok i := by
  obtain ⟨cls, hget, -⟩ := h.idOf?_eq_some_iff.1 hid
  have hi := holds_entry_iff.1 (holds_iff.2 ⟨cls, hget⟩)
  simp only [nodeOf, hid, Option.bind_some, h.placeOf?_entry hi]

theorem WellFormed.mapM_inheritedEdge_eq_ok (h : registry.WellFormed) :
    (registry.placed.mapM fun (_, cls) => registry.inheritedEdge cls) =
      .ok (registry.toList.map fun cls => cls.superclass?.toList.filterMap ClassId.index?) := by
  rw [mapM_eq_ok_iff, ← map_snd_placed, List.map_map, List.forall₂_map_right_iff,
    List.forall₂_same]
  rintro ⟨id, cls⟩ hentry
  obtain ⟨i, rfl, hi⟩ := get?_eq_some_iff.1 (mem_placed_iff.1 hentry)
  dsimp only [Function.comp_apply]
  rw [inheritedEdge]
  cases hsuper : cls.superclass? with
  | none => rfl
  | some id =>
    obtain ⟨j, hj, rfl⟩ := h.superclass_earlier i cls id (get?_entry.trans hi) hsuper
    obtain ⟨hlt, -⟩ := List.getElem?_eq_some_iff.1 hi
    simp only [h.placeOf?_entry (Nat.lt_trans hj hlt)]
    rfl

/-- Adding dependencies between registered classes adds their edges in order. -/
theorem WellFormed.foldlM_addDependency_eq_ok (h : registry.WellFormed)
    (dependencies : List Dependency)
    (hknown : ∀ dependency ∈ dependencies,
      dependency.owner ∈ registry.names ∧ dependency.target ∈ registry.names)
    (graph : Graph) (hsize : graph.size = registry.toList.length) :
    ∃ larger, dependencies.foldlM registry.addDependency graph = .ok larger ∧
      larger.size = registry.toList.length ∧ ∀ i cls, registry.toList[i]? = some cls →
        larger.next i = graph.next i ++
          (dependencies.filter (·.owner == cls.name)).filterMap registry.targetIndex? := by
  induction dependencies generalizing graph with
  | nil => exact ⟨graph, rfl, hsize, by simp⟩
  | cons dependency dependencies ih =>
    obtain ⟨⟨howner, htarget⟩, hrest⟩ := List.forall_mem_cons.1 hknown
    obtain ⟨_, hu⟩ := exists_idOf?_of_mem_names howner
    obtain ⟨owner, hget, hname⟩ := h.idOf?_eq_some_iff.1 hu
    obtain ⟨u, rfl, hcls⟩ := get?_eq_some_iff.1 hget
    obtain ⟨_, hv⟩ := exists_idOf?_of_mem_names htarget
    obtain ⟨_, hget, -⟩ := h.idOf?_eq_some_iff.1 hv
    obtain ⟨v, rfl, -⟩ := get?_eq_some_iff.1 hget
    obtain ⟨hlt, -⟩ := List.getElem?_eq_some_iff.1 hcls
    obtain ⟨middle, hadd, hmiddle, hnext⟩ :=
      Graph.addEdge_eq_ok (v := v) (hsize ▸ hlt : u < graph.size)
    obtain ⟨larger, hfold, hlarger, hall⟩ := ih hrest middle (hmiddle.trans hsize)
    refine ⟨larger, ?_, hlarger, fun i cls hi => ?_⟩
    · rw [List.foldlM_cons, addDependency, h.nodeOf_eq_ok hu, h.nodeOf_eq_ok hv]
      exact (bind_of_eq_ok hadd _).trans hfold
    · -- only the successors of the owner grow, and no other class has its name
      rw [hall i cls hi, hnext, List.append_assoc, List.filter_cons]
      by_cases hiu : i = u
      · subst hiu
        cases hcls.symm.trans hi
        simp [hname, targetIndex?, hv, ClassId.index?]
      · have hne : dependency.owner ≠ cls.name := fun heq =>
          hiu (h.index_inj hi hcls (heq.symm.trans hname.symm))
        simp [hne, hiu]

/-- The graph that is searched is that of the links. -/
theorem WellFormed.dependencyGraph_eq_ok (h : registry.WellFormed)
    (hconsistent : registry.Consistent) :
    registry.dependencyGraph (registry.toList.flatMap FuzzyClass.dependencies) =
      .ok registry.linkGraph := by
  obtain ⟨graph, hfold, hsize, hnext⟩ := h.foldlM_addDependency_eq_ok
    (registry.toList.flatMap FuzzyClass.dependencies) (fun _ => hconsistent.mem_names h)
    ⟨(registry.toList.map fun cls => cls.superclass?.toList.filterMap ClassId.index?).toArray⟩
    (by simp [Graph.size])
  have heq : graph = registry.linkGraph := by
    refine Graph.ext_next (hsize.trans size_linkGraph.symm) fun i hi => ?_
    obtain ⟨cls, hcls⟩ : ∃ cls, registry.toList[i]? = some cls :=
      ⟨_, List.getElem?_eq_getElem (hi.trans_eq hsize)⟩
    rw [hnext i cls hcls, next_linkGraph hcls, filterMap_linksOf,
      h.filter_owner_eq_dependencies (List.mem_of_getElem? hcls)]
    simp [Graph.next, hcls]
  rw [dependencyGraph, bind_of_eq_ok h.entries_eq, bind_of_eq_ok h.mapM_inheritedEdge_eq_ok, ← heq]
  exact hfold

theorem WellFormed.filterMap_idAt?_eq (h : registry.WellFormed) {places : List Nat}
    (hplaces : ∀ place ∈ places, place < registry.toList.length) :
    places.filterMap registry.idAt? = places.map .entry := by
  rw [← List.filterMap_eq_map]
  exact List.filterMap_congr fun place hplace => h.idAt?_eq_some (hplaces place hplace)

/-- A consistent registry is scheduled without a fault, by a search of its links. -/
theorem WellFormed.schedule_eq_ok (h : registry.WellFormed) (hconsistent : registry.Consistent) :
    ∃ s, registry.linkGraph.search = .ok s ∧ registry.linkGraph.Solved s ∧
      registry.schedule (registry.toList.flatMap FuzzyClass.dependencies) =
        .ok { order := s.order.toList.map .entry, cyclic := s.cyclic.toList.map .entry } := by
  obtain ⟨s, hsearch, hsolved⟩ := Graph.search_eq_ok h.closed_linkGraph
  refine ⟨s, hsearch, hsolved, ?_⟩
  rw [Registry.schedule, bind_of_eq_ok (h.dependencyGraph_eq_ok hconsistent),
    bind_of_eq_ok hsearch]
  have hplaces : ∀ place ∈ s.order.toList, place < registry.toList.length := fun place hplace =>
    (List.mem_range.1 (hsolved.perm.subset hplace)).trans_eq size_linkGraph
  have hcyclic : ∀ place ∈ s.cyclic.toList, place < registry.toList.length := fun place hplace =>
    hplaces place (List.mem_of_mem_filter (hsolved.cyclic ▸ hplace))
  rw [h.filterMap_idAt?_eq hplaces, h.filterMap_idAt?_eq hcyclic]
  rfl

end Registry

end FuzzyHierarchy
