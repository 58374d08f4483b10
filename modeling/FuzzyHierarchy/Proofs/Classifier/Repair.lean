import FuzzyHierarchy.Proofs.Classifier.Admission
import FuzzyHierarchy.Proofs.Classifier.Reporting
import FuzzyHierarchy.Proofs.Registry.Failure

/-
Repairs of registrations that do not finalize. A violation says what is missing: a variable, which
is then declared in the class that the violation names, or a class, which is then registered last
with nothing in it.

Main statement: the repaired registrations are accepted, and finalizing them succeeds or fails at a
later reference than before, so there are at most as many repairs as references.
-/

namespace FuzzyHierarchy

/-- The registration with one more variable. -/
def Registration.declareVariable (registration : Registration) (name : String) :
    Except DeclarationError Registration := do
  let vars ← registration.vars.declare registration.name name
  return { registration with vars }

/-- The registrations with what a violation is about. Only violations of constraints are about
something that can be added. -/
def DeclarationError.repair (calls : List Registration) :
    DeclarationError → Except DeclarationError (List Registration)
  | .undeclaredVariable scope name _ =>
    calls.mapM fun call => if call.name = scope then call.declareVariable name else .ok call
  | .undeclaredClass _ target => .ok (calls ++ [{ name := target }])
  | _ => .ok calls

/-! ## One more variable -/

theorem ClassBody.grows_refl (body : ClassBody) : body.Grows body := ⟨rfl, fun _ h => h⟩

/-- A new variable is declared beside those that are there. -/
theorem Registration.exists_declareVariable {registration : Registration} {name : String}
    (hfree : name ∉ registration.vars) :
    ∃ grown, registration.declareVariable name = .ok grown ∧
      registration.Corresponds ClassBody.Grows grown ∧ name ∈ grown.vars := by
  cases hdeclare : registration.vars.declare registration.name name with
  | error e => exact absurd (Variables.declare_eq_error_iff.1 hdeclare).1 hfree
  | ok vars =>
    obtain ⟨-, hvars⟩ := Variables.declare_eq_ok_iff.1 hdeclare
    have hmem : ∀ other, other ∈ vars ↔ other ∈ registration.vars ∨ other = name := by
      intro other
      rw [← Variables.mem_toList, hvars]
      simp [Variables.mem_toList]
    refine ⟨{ registration with vars }, bind_of_eq_ok hdeclare _, ⟨rfl, rfl, rfl, ?_⟩, ?_⟩
    · exact fun other hother => (hmem other).2 (.inl hother)
    · exact (hmem name).2 (.inr rfl)

namespace Blueprint

variable {blueprint next last : Blueprint} {calls repaired : List Registration}
  {call : Registration}
  {violation : DeclarationError} {settings : Settings} {place : Nat}

/-! ## Registered classes -/

/-- Every registration has its class, with the same body. -/
theorem exists_class_of_registerAll (hregister : registerAll { settings } calls = .ok blueprint)
    (hcall : call ∈ calls) :
    ∃ cls ∈ blueprint.registry.toList, cls.name = call.name ∧
      cls.toClassBody = call.toClassBody := by
  have hmem : call.canonical ∈ blueprint.registry.registrations := by
    rw [registrations_registerAll .empty hregister]
    exact List.mem_append_right _ (List.mem_map_of_mem hcall)
  obtain ⟨cls, hcls, hsame⟩ := List.mem_map.1 hmem
  exact ⟨cls, hcls, congrArg (·.name) hsame, congrArg (·.toClassBody) hsame⟩

theorem registerAll_concat {id : ClassId} (hregister : blueprint.registerAll calls = .ok next)
    (hcall : (register call).effect next = (.ok id, last)) :
    blueprint.registerAll (calls ++ [call]) = .ok last := by
  rw [registerAll] at hregister ⊢
  rw [InPlace.all_append, bind_of_eq_ok hregister, InPlace.all_cons, hcall]
  rfl

/-! ## One repair -/

section Repair

variable (hregister : registerAll { settings } calls = .ok blueprint)

include hregister

/-- The class that lacks a variable gains it, and the others stay as they are. -/
theorem exists_repair_undeclaredVariable {cls : FuzzyClass} {name referencedFrom : String}
    (hcls : cls ∈ blueprint.registry.toList) (hfree : name ∉ cls.vars) :
    ∃ repaired next,
      DeclarationError.repair calls (.undeclaredVariable cls.name name referencedFrom) =
        .ok repaired ∧
      registerAll { settings } repaired = .ok next ∧ blueprint.registry.Grows next.registry ∧
        next.registry.Supplies (.undeclaredVariable cls.name name referencedFrom) := by
  have hwf := wellFormed_of_registerAll hregister
  have hgrown : ∀ call ∈ calls, ∃ grown,
      (if call.name = cls.name then call.declareVariable name else .ok call) = .ok grown ∧
        call.Corresponds ClassBody.Grows grown ∧
        (call.name = cls.name → name ∈ grown.vars) := by
    intro call hcall
    by_cases hname : call.name = cls.name
    · obtain ⟨other, hother, hsame, hbody⟩ := exists_class_of_registerAll hregister hcall
      obtain rfl := hwf.eq_of_name_eq hother hcls (hsame.trans hname)
      have hvars : other.vars = call.vars := congrArg ClassBody.vars hbody
      obtain ⟨grown, hdeclare, hgrows, hmem⟩ := Registration.exists_declareVariable (hvars ▸ hfree)
      exact ⟨grown, by rw [if_pos hname, hdeclare], hgrows, fun _ => hmem⟩
    · exact ⟨call, by rw [if_neg hname], ⟨rfl, rfl, call.grows_refl⟩, fun h => absurd h hname⟩
  obtain ⟨repaired, hrepaired⟩ := exists_forall₂_iff.2 hgrown
  have hstart : Registry.Corresponds ClassBody.Grows ({ settings } : Blueprint).registry
    ({ settings } : Blueprint).registry := List.Forall₂.nil
  obtain ⟨next, hnext, hclasses⟩ :=
    exists_registerAll (hrepaired.imp fun _ _ h => h.2.1) hstart .empty .empty hregister
  refine ⟨repaired, next, mapM_eq_ok_iff.2 (hrepaired.imp fun _ _ h => h.1), hnext, ?_, ?_⟩
  · exact ⟨next.registry.toList, [], (List.append_nil _).symm, hclasses, by simp⟩
  · -- the class was registered, so one of the registrations has its name
    have hmem : cls.name ∈ calls.map (·.name) := by
      rw [← hwf.names_eq_of_registrations (registrations_registerAll .empty hregister)]
      exact hwf.mem_names_iff.2 ⟨cls, hcls, rfl⟩
    obtain ⟨call, hcall, hname⟩ := List.mem_map.1 hmem
    obtain ⟨grown, hgrown, -, hsame, hvar⟩ := exists_mem_of_forall₂ hrepaired hcall
    obtain ⟨scope, hscope, hscopeName, hbody⟩ := exists_class_of_registerAll hnext hgrown
    refine ⟨scope, hscope, hscopeName.trans (hsame.name.symm.trans hname), ?_⟩
    have hvars : scope.vars = grown.vars := congrArg ClassBody.vars hbody
    exact hvars ▸ hvar hname

/-- A class that is missing comes last. -/
theorem exists_repair_undeclaredClass {owner target : String}
    (hfree : target ∉ blueprint.registry.names) :
    ∃ repaired next,
      DeclarationError.repair calls (.undeclaredClass owner target) = .ok repaired ∧
      registerAll { settings } repaired = .ok next ∧ blueprint.registry.Grows next.registry ∧
        next.registry.Supplies (.undeclaredClass owner target) := by
  let cls : FuzzyClass := { name := target }
  let registry := blueprint.registry.push cls
  have hclasses : registry.toList = blueprint.registry.toList ++ [cls] := Registry.toList_push _ _
  have hadded : (Registry.register { name := target }).effect blueprint.registry =
      (.ok (.entry blueprint.registry.toList.length), registry) :=
    Registry.register_eq_ok_iff.2 ⟨by simp [Registration.parent?], hfree, rfl, rfl⟩
  refine ⟨_, { blueprint with registry }, rfl,
    registerAll_concat hregister (register_eq_ok_iff.2 ⟨registry, hadded, rfl⟩), ?_, ?_⟩
  · refine ⟨blueprint.registry.toList, [cls], hclasses, ?_, by simp [cls]⟩
    exact List.forall₂_same.2 fun other _ => ⟨rfl, rfl, other.grows_refl⟩
  · have hnames : registry.names = blueprint.registry.names ++ [target] := Registry.names_push _ _
    change target ∈ registry.names
    rw [hnames]
    exact List.mem_append_right _ (List.mem_singleton_self _)

/-- What finalizing answers with can be added, and the registrations are accepted with it. -/
theorem exists_repair (hfails : blueprint.finalize = .ok (.error violation)) :
    ∃ repaired next, violation.repair calls = .ok repaired ∧
      registerAll { settings } repaired = .ok next ∧ blueprint.registry.Grows next.registry ∧
        next.registry.Supplies violation := by
  have hwf := wellFormed_of_registerAll hregister
  have hmem := List.mem_of_head? ((finalize_eq_error_iff hwf).1 hfails)
  rcases Registry.missing_of_mem_violations hwf hmem with
    ⟨cls, hcls, name, referencedFrom, rfl, hfree⟩ | ⟨owner, target, rfl, hfree⟩
  · exact exists_repair_undeclaredVariable hregister hcls hfree
  · exact exists_repair_undeclaredClass hregister hfree

end Repair

/-! ## Where finalizing fails -/

theorem finalize_eq_error_iff_failsAt (h : blueprint.registry.WellFormed) :
    blueprint.finalize = .ok (.error violation) ↔
      ∃ place, blueprint.registry.FailsAt place violation :=
  (finalize_eq_error_iff h).trans Registry.head?_violations_eq_some_iff

/-- Where all references before a place resolve, finalizing succeeds or fails there or later. -/
theorem finalize_or_failsAt (h : blueprint.registry.WellFormed)
    (hbefore : blueprint.registry.ResolvesBefore place) :
    (∃ classifier, blueprint.finalize = .ok (.ok classifier)) ∨
      ∃ violation later, place ≤ later ∧ blueprint.finalize = .ok (.error violation) ∧
        blueprint.registry.FailsAt later violation := by
  cases hfirst : blueprint.registry.violations.head? with
  | none => exact .inl ((exists_finalize_iff_violations h).2 (List.head?_eq_none_iff.1 hfirst))
  | some violation =>
    obtain ⟨later, hfails⟩ := Registry.head?_violations_eq_some_iff.1 hfirst
    exact .inr ⟨violation, later, hfails.le hbefore, (finalize_eq_error_iff h).2 hfirst, hfails⟩

/-! ## Repairs one after another -/

/-- The registrations that a number of repairs lead to, each for the violation that finalizing
answers with. -/
inductive Repairs (settings : Settings) : Nat → List Registration → List Registration → Prop
  | none {calls : List Registration} : Repairs settings 0 calls calls
  | more {count : Nat} {calls repaired final : List Registration} {blueprint : Blueprint}
      {violation : DeclarationError} :
    registerAll { settings } calls = .ok blueprint →
      blueprint.finalize = .ok (.error violation) → violation.repair calls = .ok repaired →
        Repairs settings count repaired final → Repairs settings (count + 1) calls final

/-- Each repair takes the failure at least one reference on. -/
theorem Repairs.add_le {count : Nat} {final : List Registration}
    (h : Repairs settings count calls final)
    (hregister : registerAll { settings } calls = .ok blueprint)
    (hbefore : blueprint.registry.ResolvesBefore place)
    (hplace : place ≤ blueprint.registry.references.length) :
    place + count ≤ blueprint.registry.references.length := by
  induction h generalizing blueprint place with
  | none => exact hplace
  | @more count calls repaired final found violation hfound hfails hrepair _ ih =>
    cases hregister.symm.trans hfound
    obtain ⟨_, next, hsame, hnext, hgrows, hsupplies⟩ := exists_repair hregister hfails
    cases hrepair.symm.trans hsame
    have hwf := wellFormed_of_registerAll hregister
    have hnextWf := wellFormed_of_registerAll hnext
    obtain ⟨later, hlater⟩ := (finalize_eq_error_iff_failsAt hwf).1 hfails
    have hle := hlater.le hbefore
    have hlt := hlater.lt_length
    have hrest := ih hnext (hgrows.resolvesBefore_succ hwf hnextWf hlater hsupplies)
      (hgrows.length_references ▸ hlt)
    rw [hgrows.length_references] at hrest
    omega

/-- Repairs come to an end, with registrations that are finalized. -/
theorem exists_repairs {calls : List Registration} {blueprint : Blueprint} {place : Nat}
    (hregister : registerAll { settings } calls = .ok blueprint)
    (hbefore : blueprint.registry.ResolvesBefore place) :
    ∃ count final last classifier, Repairs settings count calls final ∧
      registerAll { settings } final = .ok last ∧ last.finalize = .ok (.ok classifier) := by
  have hwf := wellFormed_of_registerAll hregister
  rcases finalize_or_failsAt hwf hbefore with
    ⟨classifier, hfinalize⟩ | ⟨violation, later, hle, hfails, hlater⟩
  · exact ⟨0, calls, blueprint, classifier, .none, hregister, hfinalize⟩
  · obtain ⟨repaired, next, hrepair, hnext, hgrows, hsupplies⟩ := exists_repair hregister hfails
    have hnextWf := wellFormed_of_registerAll hnext
    -- what is left of the sweep gets shorter, which ends the recursion
    have hlength := hgrows.length_references
    have hlt := hlater.lt_length
    obtain ⟨count, final, last, classifier, hrepairs, hlast⟩ :=
      exists_repairs hnext (hgrows.resolvesBefore_succ hwf hnextWf hlater hsupplies)
    exact ⟨count + 1, final, last, classifier, .more hregister hfails hrepair hrepairs, hlast⟩
termination_by blueprint.registry.references.length - place
decreasing_by omega

/-! ## The main statement, with three repairs as an example -/

/-- Where finalizing fails, what it answers with can be added to the accepted registrations: they
are accepted again, with the same references in the same places, and finalizing them succeeds or
fails at a later place. Repairs end in a classifier, and there are at most as many as references. -/
theorem finalize_repair (settings : Settings) (calls : List Registration)
    (violation : DeclarationError)
    (hfails : (tryRegisterAll { settings } calls).finalize = .ok (.error violation)) :
    let registry := (tryRegisterAll { settings } calls).registry
    let earlier := accepted { settings } calls
    (∃ place repaired next, registry.FailsAt place violation ∧
      violation.repair earlier = .ok repaired ∧ registerAll { settings } repaired = .ok next ∧
      next.registry.references.map (fun entry => (entry.1.name, entry.2)) =
        registry.references.map (fun entry => (entry.1.name, entry.2)) ∧
      ((∃ classifier, next.finalize = .ok (.ok classifier)) ∨
        ∃ violation later, place < later ∧ next.finalize = .ok (.error violation) ∧
          next.registry.FailsAt later violation)) ∧
    (∀ count final, Repairs settings count earlier final → count ≤ registry.references.length) ∧
    ∃ count final last classifier, Repairs settings count earlier final ∧
      registerAll { settings } final = .ok last ∧ last.finalize = .ok (.ok classifier) := by
  intro registry earlier
  have hregister := registerAll_accepted { settings } calls
  have hwf := wellFormed_of_registerAll hregister
  have hstart : registry.ResolvesBefore 0 := fun i hi => absurd hi (Nat.not_lt_zero i)
  refine ⟨?_, fun count final hrepairs => ?_, exists_repairs hregister hstart⟩
  · obtain ⟨place, hplace⟩ := (finalize_eq_error_iff_failsAt hwf).1 hfails
    obtain ⟨repaired, next, hrepair, hnext, hgrows, hsupplies⟩ := exists_repair hregister hfails
    have hnextWf := wellFormed_of_registerAll hnext
    exact ⟨place, repaired, next, hplace, hrepair, hnext, hgrows.map_references,
      finalize_or_failsAt hnextWf
        (hgrows.resolvesBefore_succ hwf hnextWf hplace hsupplies)⟩
  · have hle := hrepairs.add_le hregister hstart (Nat.zero_le _)
    rwa [Nat.zero_add] at hle

/-- A person of whom the height is not declared, and who refers to the size of a group that is
nowhere. -/
def drafts : List Registration :=
  [{ name := "Person"
     vars := ⟨["age"], List.nodup_singleton _⟩
     constraints :=
       ⟨[.simpleFeature "height" "tall", .simpleRelation "Group" "size" "age" "old"]⟩ }]

theorem finalize_repair_drafts :
    (tryRegisterAll {} drafts).finalize =
        .ok (.error (.undeclaredVariable "Person" "height" "Person")) ∧
      ∃ count final last classifier, count ≤ 4 ∧ Repairs {} count drafts final ∧
        registerAll {} final = .ok last ∧ last.finalize = .ok (.ok classifier) := by
  have hfails : (tryRegisterAll {} drafts).finalize =
      .ok (.error (.undeclaredVariable "Person" "height" "Person")) := by
    rw [finalize_eq_error_iff ((Reachable.start {}).tryRegisterAll drafts).wellFormed]
    decide +kernel
  have haccepted : accepted {} drafts = drafts := by
    rw [accepted, drafts, InPlace.accepted_cons, if_pos (by decide +kernel)]
    rfl
  obtain ⟨-, hcount, count, final, last, classifier, hrepairs, hlast⟩ :=
    finalize_repair {} drafts _ hfails
  have hlength : (tryRegisterAll {} drafts).registry.references.length = 4 := by decide +kernel
  rw [haccepted] at hcount hrepairs
  rw [hlength] at hcount
  exact ⟨hfails, count, final, last, classifier, hcount count final hrepairs, hrepairs, hlast⟩

end Blueprint

end FuzzyHierarchy

