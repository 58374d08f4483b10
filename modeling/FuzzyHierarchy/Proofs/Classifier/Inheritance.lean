import FuzzyHierarchy.Proofs.Classifier.Finalized
import FuzzyHierarchy.Proofs.Registry.Nearest

/-
What the classes of a finalized classifier inherit. Variables and constants are looked for apart,
each in the class itself and then in those above it, and the first declaration that is met counts.

Main statement: every class has ancestors up to one without a superclass, in the reverse order of
registration, and a symbol is found in the nearest class that declares it, or nowhere if none does.
-/

namespace FuzzyHierarchy

namespace Classifier

variable {classifier : Classifier} {cls : FuzzyClass} {id : ClassId}

/-- The ancestors of a class that is held come one above the other, and each variable and constant
is found in the first class, from the class itself up through its ancestors, that declares it.
Nothing is found exactly where none of them declares it, whatever they declare in the other
namespace. -/
theorem inherited_from_nearest (h : classifier.Finalized) (hget : classifier.get? id = some cls) :
    ∃ above classes, classifier.ancestors id = .ok above ∧ classifier.Ascent id cls above ∧
      (id :: above).map classifier.get? = classes.map some ∧
      (∀ name, ∃ found, classifier.findVariable id name = .ok found ∧
        (∀ scope, found = some scope ↔ FuzzyClass.Nearest (name ∈ ·.vars) classes scope) ∧
        (found = none ↔ ∀ scope ∈ classes, name ∉ scope.vars)) ∧
      ∀ name, ∃ found, classifier.findConstant id name = .ok found ∧
        (∀ scope value, found = some (scope, value) ↔
          FuzzyClass.Nearest (name ∈ ·.consts.names) classes scope ∧
            (name, value) ∈ scope.consts.toList) ∧
        (found = none ↔ ∀ scope ∈ classes, name ∉ scope.consts.names) := by
  have hwf := h.wellFormed
  obtain ⟨upper, hupper⟩ := hwf.exists_lineage_superclass hget
  have hall : Registry.Lineage classifier.toRegistry (some id) ((id, cls) :: upper) :=
    .above hget hupper
  refine ⟨upper.map Prod.fst, cls :: upper.map Prod.snd, hwf.ancestors_eq_ok hget hupper,
    hwf.ascent hget hupper, hall.map_get?, fun name => ?_, fun name => ?_⟩
  · exact ⟨_, hwf.findVariable_eq_ok hall name, fun _ => Registry.find?_declares_eq_some_iff,
      Registry.find?_declares_eq_none_iff⟩
  · exact ⟨_, hwf.findConstant_eq_ok hall name, fun _ _ => Registry.findSome?_consts_eq_some_iff,
      Registry.findSome?_consts_eq_none_iff⟩

/-- A thing has a size and a limit to it. A box is a thing and declares nothing, and a crate is a
box that uses both names the other way round. -/
def crates : Blueprint :=
  let thing : Registration := {
    name := "Thing"
    vars := ⟨["size"], List.nodup_singleton _⟩
    consts := ⟨[("limit", "10")], List.nodup_singleton _⟩ }
  let box : Registration := { name := "Box", superclass? := some "Thing" }
  let crate : Registration := {
    name := "Crate"
    superclass? := some "Box"
    vars := ⟨["limit"], List.nodup_singleton _⟩
    consts := ⟨[("size", "3")], List.nodup_singleton _⟩ }
  ((({} : Blueprint).tryRegister thing).tryRegister box).tryRegister crate

/-- A crate has its size and its limit from the thing, past the box and its own other symbols. -/
theorem inherited_from_nearest_crates :
    ∃ (classifier : Classifier) (above : List ClassId) (classes : List FuzzyClass),
      crates.finalize = .ok (.ok classifier) ∧
      classifier.ancestors (.entry 2) = .ok above ∧ above = [.entry 1, .entry 0] ∧ above.Nodup ∧
      (∃ scope, classifier.findVariable (.entry 2) "size" = .ok (some scope) ∧
        scope.name = "Thing" ∧ FuzzyClass.Nearest ("size" ∈ ·.vars) classes scope) ∧
      ∃ scope, classifier.findConstant (.entry 2) "limit" = .ok (some (scope, "10")) ∧
        scope.name = "Thing" ∧ FuzzyClass.Nearest ("limit" ∈ ·.consts.names) classes scope := by
  have hreachable : crates.Reachable := .tryRegister _ (.tryRegister _ (.tryRegister _ (.start _)))
  obtain ⟨classifier, hfinalize, hsize⟩ := Blueprint.exists_finalize_of_map
    (show crates.finalize.map (·.map (·.toList.length)) = .ok (.ok 3) by decide +kernel)
  obtain ⟨hregistry, -⟩ := hreachable.scheduled hfinalize
  have hancestors : crates.registry.ancestors (.entry 2) = .ok [.entry 1, .entry 0] := by
    decide +kernel
  have hvariable : (crates.registry.findVariable (.entry 2) "size").map (·.map (·.name)) =
      .ok (some "Thing") := by decide +kernel
  have hconstant : (crates.registry.findConstant (.entry 2) "limit").map
      (·.map fun found => (found.1.name, found.2)) = .ok (some ("Thing", "10")) := by
    decide +kernel
  rw [← hregistry] at hancestors hvariable hconstant
  obtain ⟨cls, hget⟩ := Registry.holds_iff.1
    (Registry.holds_entry_iff.2 (show 2 < classifier.toList.length by omega))
  obtain ⟨above, classes, habove, hascent, -, hvariables, hconstants⟩ :=
    inherited_from_nearest ⟨crates, hreachable, .inl hfinalize⟩ hget
  refine ⟨classifier, above, classes, hfinalize, habove, ?_, hascent.nodup, ?_, ?_⟩
  · rw [habove] at hancestors
    exact Except.ok.inj hancestors
  · obtain ⟨found, hfound, hnearest, -⟩ := hvariables "size"
    rw [hfound] at hvariable
    obtain ⟨scope, rfl, hname⟩ := Option.map_eq_some_iff.1 (Except.ok.inj hvariable)
    exact ⟨scope, hfound, hname, (hnearest scope).1 rfl⟩
  · obtain ⟨found, hfound, hnearest, -⟩ := hconstants "limit"
    rw [hfound] at hconstant
    obtain ⟨⟨scope, limit⟩, rfl, hpair⟩ := Option.map_eq_some_iff.1 (Except.ok.inj hconstant)
    obtain ⟨hname, rfl⟩ := Prod.mk.inj hpair
    exact ⟨scope, hfound, hname, ((hnearest scope _).1 rfl).1⟩

end Classifier

end FuzzyHierarchy
