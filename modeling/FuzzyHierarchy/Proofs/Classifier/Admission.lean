import FuzzyHierarchy.Proofs.Classifier.Finalization
import FuzzyHierarchy.Proofs.Registry.Correspondence
import FuzzyHierarchy.Proofs.Registry.Registrations

/-
Sequences of registrations, some of which are refused. A registry holds the classes that were
accepted, in the order of their acceptance, and a refused registration has no part in it.

Main statement: what was accepted before decides the answer to every further registration, a refused
one leaves the blueprint as it was, the accepted registrations alone lead to the same blueprint, and
no later registration takes a class from its id.
-/

namespace FuzzyHierarchy

namespace Registry

variable {registry : Registry} {accepted : List Registration}

/-- A registry holds the classes of a list of registrations, each in the slot and in the row of its
place there, and nothing else. -/
structure Records (registry : Registry) (accepted : List Registration) : Prop where
  names_eq : registry.names = accepted.map (·.name)
  names_nodup : registry.names.Nodup
  ids_eq : registry.ids = (List.range accepted.length).map .entry
  holds_iff : ∀ id, registry.holds id = true ↔ ∃ k < accepted.length, id = .entry k
  class_at : ∀ k call, accepted[k]? = some call → ∃ cls,
    registry.get? (.entry k) = some cls ∧ registry.registrationOf cls = call.canonical ∧
      registry.idOf? call.name = some (.entry k) ∧ registry.find? call.name = .ok (some cls)
  not_found : ∀ name, name ∉ accepted.map (·.name) →
    registry.idOf? name = none ∧ registry.find? name = .ok none
  superclass_earlier : ∀ k cls parent, registry.get? (.entry k) = some cls →
    cls.superclass? = some parent → registry.holds parent = true ∧ ∃ j < k, parent = .entry j

theorem WellFormed.names_eq_of_registrations (hwf : registry.WellFormed)
    (h : registry.registrations = accepted.map Registration.canonical) :
    registry.names = accepted.map (·.name) := by
  rw [hwf.names_eq_map_registrations, h, List.map_map]
  rfl

/-- A registry that has the right registrations records them. -/
theorem WellFormed.records (hwf : registry.WellFormed)
    (h : registry.registrations = accepted.map Registration.canonical) :
    registry.Records accepted := by
  have hnames := hwf.names_eq_of_registrations h
  have hlength : registry.toList.length = accepted.length := by
    simpa [registrations] using congrArg List.length h
  constructor
  · exact hnames
  · exact hwf.names_nodup
  · rw [hwf.ids_eq, hlength]
  · intro id
    cases id with
    | entry k => simp [holds_entry_iff, hlength]
    | null => exact iff_of_false not_holds_null (by simp)
  · intro k call hcall
    have hplace : registry.registrations[k]? = some call.canonical := by simp [h, hcall]
    rw [registrations, List.getElem?_map, Option.map_eq_some_iff] at hplace
    obtain ⟨cls, hcls, hsame⟩ := hplace
    have hname : cls.name = call.name := congrArg (·.name) hsame
    have hget : registry.get? (.entry k) = some cls := get?_entry.trans hcls
    exact ⟨cls, hget, hsame, hwf.idOf?_eq_some_iff.2 ⟨cls, hget, hname⟩,
      hwf.find?_eq_some_iff.2 ⟨mem_toList_of_get? hget, hname⟩⟩
  · intro name hfree
    rw [← hnames] at hfree
    exact ⟨idOf?_eq_none_iff.2 hfree, find?_eq_none_iff.2 hfree⟩
  · intro k cls parent hget hsuper
    obtain ⟨above, habove⟩ := hwf.exists_superclass (mem_toList_of_get? hget) hsuper
    exact ⟨Registry.holds_iff.2 ⟨above, habove⟩, hwf.superclass_earlier k cls parent hget hsuper⟩

end Registry

namespace Blueprint

variable {blueprint last : Blueprint} {calls : List Registration}

/-- What is left of the blueprint by the registrations of a list, one after another. -/
def tryRegisterAll (blueprint : Blueprint) (calls : List Registration) : Blueprint :=
  (InPlace.each register calls blueprint).2

/-- Those registrations of a list that are accepted when they are tried one after another. -/
def accepted (blueprint : Blueprint) (calls : List Registration) : List Registration :=
  InPlace.accepted register calls blueprint

/-! ## Registrations one after another -/

theorem extends_tryRegister (blueprint : Blueprint) (call : Registration) :
    blueprint.registry.Extends (blueprint.tryRegister call).registry := by
  match hregister : (register call).effect blueprint with
  | (.error e, next) =>
    obtain ⟨-, rfl⟩ := register_eq_error_iff.1 hregister
    rw [tryRegister, hregister]
    exact List.prefix_refl _
  | (.ok id, next) =>
    obtain ⟨registry, hadded, rfl⟩ := register_eq_ok_iff.1 hregister
    obtain ⟨-, -, -, rfl⟩ := Registry.register_eq_ok_iff.1 hadded
    rw [tryRegister_of_eq_ok hregister]
    exact ⟨_, (Registry.toList_push _ _).symm⟩

theorem extends_tryRegisterAll (blueprint : Blueprint) (calls : List Registration) :
    blueprint.registry.Extends (blueprint.tryRegisterAll calls).registry := by
  refine InPlace.each_holds (fun _ (next : Blueprint) => blueprint.registry.Extends next.registry)
    (fun _ call next h => ?_) [] (List.prefix_refl blueprint.registry.toList) calls
  exact List.IsPrefix.trans h (extends_tryRegister next call)

theorem Reachable.tryRegisterAll (h : blueprint.Reachable) (calls : List Registration) :
    (blueprint.tryRegisterAll calls).Reachable :=
  InPlace.each_holds (fun _ => Reachable) (fun _ call _ h => h.tryRegister call) [] h calls

/-- A refused registration leaves no trace, so those that are accepted lead to the same blueprint by
themselves. -/
theorem registerAll_accepted (blueprint : Blueprint) (calls : List Registration) :
    blueprint.registerAll (blueprint.accepted calls) = .ok (blueprint.tryRegisterAll calls) :=
  InPlace.all_accepted (fun _ _ _ _ hrefused => (register_eq_error_iff.1 hrefused).2) calls
    blueprint

/-- The registry goes on with the registrations, in their order. -/
theorem registrations_registerAll (h : blueprint.registry.WellFormed)
    (hregister : blueprint.registerAll calls = .ok last) :
    last.registry.registrations =
      blueprint.registry.registrations ++ calls.map Registration.canonical := by
  induction calls generalizing blueprint with
  | nil =>
    cases hregister
    exact (List.append_nil _).symm
  | cons call calls ih =>
    obtain ⟨id, registry, hadded, hrest⟩ := registerAll_cons_eq_ok_iff.1 hregister
    rw [ih (h.register hadded) hrest, h.registrations_register hadded, List.append_assoc]
    rfl

/-- Registrations that correspond to accepted ones are accepted as well. -/
theorem exists_registerAll {related : ClassBody → ClassBody → Prop} {other last : Blueprint}
    {xs ys : List Registration} (hcalls : List.Forall₂ (Registration.Corresponds related) xs ys)
    (h : blueprint.registry.Corresponds related other.registry)
    (hwf : blueprint.registry.WellFormed) (hother : other.registry.WellFormed)
    (hregister : blueprint.registerAll xs = .ok last) :
    ∃ last', other.registerAll ys = .ok last' ∧
      last.registry.Corresponds related last'.registry := by
  induction hcalls generalizing blueprint other with
  | nil =>
    cases hregister
    exact ⟨other, rfl, h⟩
  | cons hcall _ ih =>
    obtain ⟨id, registry, hx, hrest⟩ := registerAll_cons_eq_ok_iff.1 hregister
    obtain ⟨registry', hy, hnext⟩ := h.exists_register hwf hother hcall hx
    have hnext : registry.Corresponds related
        ({ other with registry := registry' } : Blueprint).registry := hnext
    obtain ⟨last', hlast, hlasts⟩ := ih hnext (hwf.register hx) (hother.register hy) hrest
    exact ⟨last', registerAll_cons_eq_ok_iff.2 ⟨id, registry', hy, hlast⟩, hlasts⟩

/-! ## The main statement, with two refusals as an example -/

/-- After any registrations, those accepted among them decide the answer to the next one: it names
the superclass that was not accepted, else the name that was, and leaves the blueprint as it was;
and else it gives the next id. The accepted ones alone lead to the same blueprint, the registry
records them, and every class keeps its id whatever comes later. -/
theorem register_after_registrations (settings : Settings) (calls : List Registration) :
    let blueprint := tryRegisterAll { settings } calls
    let earlier := accepted { settings } calls
    (∀ call parent, call.superclass? = some parent → parent ≠ "" →
      parent ∉ earlier.map (·.name) →
        (register call).effect blueprint =
          (.error (.undeclaredSuperclass call.name parent), blueprint)) ∧
    (∀ call, (∀ parent, call.superclass? = some parent → parent ≠ "" →
        parent ∈ earlier.map (·.name)) →
      (call.name ∈ earlier.map (·.name) →
        (register call).effect blueprint = (.error (.duplicateClass call.name), blueprint)) ∧
      (call.name ∉ earlier.map (·.name) →
        ∃ next, (register call).effect blueprint = (.ok (.entry earlier.length), next))) ∧
    registerAll { settings } earlier = .ok blueprint ∧
    blueprint.registry.Records earlier ∧
    ∀ later id cls, blueprint.registry.get? id = some cls →
      (tryRegisterAll { settings } (calls ++ later)).registry.get? id = some cls := by
  intro blueprint earlier
  have hwf : blueprint.registry.WellFormed :=
    ((Reachable.start settings).tryRegisterAll calls).wellFormed
  have hearlier : registerAll { settings } earlier = .ok blueprint := registerAll_accepted _ calls
  have hrecords : blueprint.registry.Records earlier :=
    hwf.records (registrations_registerAll .empty hearlier)
  have hparent : ∀ {call : Registration} {parent}, parent ∈ call.parent? ↔
      call.superclass? = some parent ∧ parent ≠ "" := by
    intro call parent
    simp [Registration.parent?, Option.filter_eq_some_iff]
  refine ⟨fun call parent hsuper hne hunknown => ?_, fun call hknown => ?_, hearlier, hrecords,
    fun later id cls hget => ?_⟩
  · rw [← hrecords.names_eq] at hunknown
    refine register_eq_error_iff.2 ⟨Registry.register_eq_error_iff.2 ⟨?_, rfl⟩, rfl⟩
    exact .inl ⟨parent, hparent.2 ⟨hsuper, hne⟩, hunknown, rfl⟩
  · rw [← hrecords.names_eq] at hknown ⊢
    have hall : ∀ parent ∈ call.parent?, parent ∈ blueprint.registry.names := fun parent hmem =>
      hknown parent (hparent.1 hmem).1 (hparent.1 hmem).2
    refine ⟨fun htaken => ?_, fun hfree => ?_⟩
    · refine register_eq_error_iff.2 ⟨Registry.register_eq_error_iff.2 ⟨?_, rfl⟩, rfl⟩
      exact .inr ⟨hall, htaken, rfl⟩
    · have hlength : blueprint.registry.toList.length = earlier.length := by
        simpa [hwf.names_eq] using congrArg List.length hrecords.names_eq
      exact ⟨_, register_eq_ok_iff.2
        ⟨_, Registry.register_eq_ok_iff.2 ⟨hall, hfree, by rw [hlength], rfl⟩, rfl⟩⟩
  · rw [tryRegisterAll, InPlace.each_append]
    exact (extends_tryRegisterAll blueprint later).get?_eq_some hget

/-- A group, a club that comes before the class it extends, a second group that extends nothing that
is there, and a person who is a group. -/
def arrivals : List Registration :=
  [{ name := "Group", vars := ⟨["size"], List.nodup_singleton _⟩ },
   { name := "Club", superclass? := some "Team" },
   { name := "Group", superclass? := some "Club" },
   { name := "Person", superclass? := some "Group" }]

/-- What the arrivals leave. -/
def arrived : Blueprint := tryRegisterAll {} arrivals

theorem accepted_arrivals : (accepted {} arrivals).map (·.name) = ["Group", "Person"] := by
  decide +kernel

theorem register_after_registrations_arrivals :
    (register { name := "Group", superclass? := some "Club" }).effect arrived =
        (.error (.undeclaredSuperclass "Group" "Club"), arrived) ∧
      (register { name := "Person" }).effect arrived =
        (.error (.duplicateClass "Person"), arrived) ∧
      (∃ next, (register { name := "Club", superclass? := some "Group" }).effect arrived =
        (.ok (.entry 2), next)) ∧
      arrived.registry.idOf? "Person" = some (.entry 1) := by
  obtain ⟨hunknown, hknown, -, hrecords, -⟩ := register_after_registrations {} arrivals
  have hlength : (accepted {} arrivals).length = 2 := by
    simpa using congrArg List.length accepted_arrivals
  simp only [accepted_arrivals] at hunknown hknown
  refine ⟨hunknown _ "Club" rfl (by decide) (by decide), ?_, ?_, ?_⟩
  · obtain ⟨htaken, -⟩ := hknown { name := "Person" } (by simp)
    exact htaken (by decide)
  · obtain ⟨-, hfree⟩ := hknown { name := "Club", superclass? := some "Group" } (by simp)
    exact hlength ▸ hfree (by decide)
  · obtain ⟨call, hcall, hname⟩ : ∃ call, (accepted {} arrivals)[1]? = some call ∧
        call.name = "Person" := by
      have hplace := congrArg (·[1]?) accepted_arrivals
      simpa [List.getElem?_map, Option.map_eq_some_iff] using hplace
    obtain ⟨cls, -, -, hid, -⟩ := hrecords.class_at 1 call hcall
    exact hname ▸ hid

end Blueprint

end FuzzyHierarchy
