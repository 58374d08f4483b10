import FuzzyHierarchy.Proofs.Classifier.Finalization
import FuzzyHierarchy.Proofs.Graph.Coherence

/-
The search behind the schedule of a blueprint, while it runs.

Main statements: the graph that is searched is that of the links between the classes; every state
that the search comes to is coherent; and whenever it takes classes off the stack, they are the
strongly connected component of the class that it is about, and go into the order as they were
discovered.
-/

namespace FuzzyHierarchy

namespace Blueprint

variable {blueprint : Blueprint}

/-- When the sweep finds no violation, under whatever policy, the links are searched. -/
theorem Reachable.exists_dependencyGraph (hreachable : blueprint.Reachable) (policy : Policy) :
    ∃ findings, blueprint.registry.sweep policy = .ok findings ∧ (findings.violations = [] →
      blueprint.registry.dependencyGraph findings.dependencies =
        .ok blueprint.registry.linkGraph) := by
  have h := hreachable.wellFormed
  obtain ⟨findings, hsweep, hviolations, hdependencies⟩ := h.sweep_finds policy
  refine ⟨findings, hsweep, fun hswept => ?_⟩
  have hnone := Policy.reported_eq_nil_iff.1 (hviolations.symm.trans hswept)
  rw [hdependencies hnone]
  exact h.dependencyGraph_eq_ok (Registry.violations_eq_nil_iff.1 hnone)

theorem Reachable.exists_search (hreachable : blueprint.Reachable) :
    ∃ last, blueprint.registry.linkGraph.search = .ok last ∧
      Search.Passes blueprint.registry.linkGraph last := by
  obtain ⟨last, hsearch, -⟩ := Graph.search_eq_ok hreachable.wellFormed.closed_linkGraph
  exact ⟨last, hsearch, Search.passes_of_search hsearch⟩

/-! ## The main statements, with a search in its middle as an example -/

/-- A harbour refers to a ship, and a ship to a flag and to a crew, which is a ship in turn. -/
def harbour : Blueprint :=
  let harbour : Registration := {
    name := "Harbour"
    vars := ⟨["berth"], List.nodup_singleton _⟩
    constraints := ⟨[.simpleRelation "Ship" "load" "berth" "deep"]⟩ }
  let ship : Registration := {
    name := "Ship"
    vars := ⟨["load"], List.nodup_singleton _⟩
    constraints := ⟨[.simpleRelation "Flag" "hue" "load" "bright",
      .simpleRelation "Crew" "size" "load" "large"]⟩ }
  let crew : Registration := {
    name := "Crew", superclass? := some "Ship", vars := ⟨["size"], List.nodup_singleton _⟩ }
  let flag : Registration := { name := "Flag", vars := ⟨["hue"], List.nodup_singleton _⟩ }
  (((({} : Blueprint).tryRegister harbour).tryRegister ship).tryRegister crew).tryRegister flag

theorem reachable_harbour : harbour.Reachable :=
  .tryRegister _ (.tryRegister _ (.tryRegister _ (.tryRegister _ (.start _))))

/-- The search of the links comes to a state where the flag is in the order and the successors of
the ship are examined, with the crew above it on the stack and the harbour below. -/
theorem exists_history_harbour :
    ∃ log s before, Search.History harbour.registry.linkGraph log s ∧ s.Completes 1 before ∧
      s.stack = [2, 1, 0] ∧ before.stack = [2, 1, 0] ∧ before.order = #[3] := by
  have hgraph : harbour.registry.linkGraph = ⟨#[[1], [3, 2], [1], []]⟩ :=
    congrArg Graph.mk (by decide +kernel)
  rw [hgraph]
  have hstart : Search.History ⟨#[[1], [3, 2], [1], []]⟩ [] {} := .start
  have hharbour := hstart.root rfl (fun node (h : node < 0) => absurd h node.not_lt_zero) rfl rfl
  have hship := hharbour.step (by simp) rfl
  have hflag := hship.step (by simp) rfl
  have hplaced := hflag.step (by simp) rfl
  have hcrew := hplaced.step (by simp) rfl
  have htightened := hcrew.step (by simp) rfl
  have hretreated := htightened.step (by simp) rfl
  exact ⟨_, _, _, hretreated, ⟨_, _, rfl, rfl, rfl, rfl⟩, rfl, rfl, rfl⟩

/-- The search of the links gives a result, and the states that it passes through up to there have a
history. In every state with a history, whenever a component is taken off the stack, the members are
the classes that lead to the root and are led to by it, what is below the root on the stack is left,
the members lead to each other and to classes in the order only, and they go into the order as they
were discovered. No other step changes the order. -/
theorem components_taken_off_stack (hreachable : blueprint.Reachable) :
    (∀ policy, ∃ findings, blueprint.registry.sweep policy = .ok findings ∧
      (findings.violations = [] →
        blueprint.registry.dependencyGraph findings.dependencies =
          .ok blueprint.registry.linkGraph)) ∧
    (∃ last, blueprint.registry.linkGraph.search = .ok last ∧
      Search.Passes blueprint.registry.linkGraph last) ∧
    (∀ s, Search.Passes blueprint.registry.linkGraph s →
      ∃ log, Search.History blueprint.registry.linkGraph log s) ∧
    ∀ log s, Search.History blueprint.registry.linkGraph log s →
      (∀ root before, s.Completes root before →
        s.step blueprint.registry.linkGraph =
          before.completeComponent blueprint.registry.linkGraph root ∧
        ∃ members after,
          before.completeComponent blueprint.registry.linkGraph root = .ok after ∧
          Search.Completion blueprint.registry.linkGraph log root before after members) ∧
      ∀ after, s.step blueprint.registry.linkGraph = .ok after →
        after.order = s.order ∨ ∃ root before, s.Completes root before := by
  have hclosed := hreachable.wellFormed.closed_linkGraph
  refine ⟨hreachable.exists_dependencyGraph, hreachable.exists_search,
    fun s => Search.History.of_passes hclosed, fun log s h =>
      ⟨fun root before hcall => ?_, fun after => h.order_eq_or_completes hclosed⟩⟩
  exact ⟨hcall.step_eq, h.exists_completion hclosed hcall⟩

/-- The ship and the crew are taken off the stack, from the ship up, and the harbour is left. -/
theorem components_taken_off_stack_harbour :
    ∃ log s before after, Search.History harbour.registry.linkGraph log s ∧
      s.Completes 1 before ∧ s.step harbour.registry.linkGraph = .ok after ∧
      Search.Completion harbour.registry.linkGraph log 1 before after [1, 2] ∧
      after.stack = [0] ∧ after.order.toList = [3, 1, 2] := by
  obtain ⟨log, s, before, h, hcompletes, -, hstack, horder⟩ := exists_history_harbour
  obtain ⟨hstep, members, after, hafter, hcompletion⟩ :=
    ((components_taken_off_stack reachable_harbour).2.2.2 log s h).1 1 before hcompletes
  have htaken := hcompletion.taken
  rw [hstack] at htaken
  -- the part of the stack down to the ship is known, so the members are
  obtain ⟨hmembers, hrest⟩ := Prod.mk.inj (Except.ok.inj htaken)
  subst hmembers
  refine ⟨log, s, before, after, h, hcompletes, hstep.trans hafter, hcompletion, hrest.symm, ?_⟩
  rw [hcompletion.order, horder]
  rfl

/-- The search of the links gives a result, the states that it passes through up to there have a
history, and every state that has one is coherent. -/
theorem search_stays_coherent (hreachable : blueprint.Reachable) :
    (∀ policy, ∃ findings, blueprint.registry.sweep policy = .ok findings ∧
      (findings.violations = [] →
        blueprint.registry.dependencyGraph findings.dependencies =
          .ok blueprint.registry.linkGraph)) ∧
    (∃ last, blueprint.registry.linkGraph.search = .ok last ∧
      Search.Passes blueprint.registry.linkGraph last) ∧
    (∀ s, Search.Passes blueprint.registry.linkGraph s →
      ∃ log, Search.History blueprint.registry.linkGraph log s) ∧
    ∀ log s, Search.History blueprint.registry.linkGraph log s →
      Search.Coherent blueprint.registry.linkGraph s := by
  have hclosed := hreachable.wellFormed.closed_linkGraph
  exact ⟨hreachable.exists_dependencyGraph, hreachable.exists_search,
    fun s => Search.History.of_passes hclosed, fun _ _ h => h.coherent hclosed⟩

theorem search_stays_coherent_harbour :
    ∃ log s, Search.History harbour.registry.linkGraph log s ∧ s.stack = [2, 1, 0] ∧
      Search.Coherent harbour.registry.linkGraph s := by
  obtain ⟨log, s, before, h, -, hstack, -⟩ := exists_history_harbour
  exact ⟨log, s, h, hstack, (search_stays_coherent reachable_harbour).2.2.2 log s h⟩

end Blueprint

end FuzzyHierarchy
