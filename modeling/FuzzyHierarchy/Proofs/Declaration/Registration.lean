import FuzzyHierarchy.Declaration
import FuzzyHierarchy.Proofs.Classifier.Finalization
import FuzzyHierarchy.Proofs.Lists.Related

/-
What a declaration needs to become a registration, and what a list of declarations needs to be
registered. A declaration is looked at by itself first: its variables are distinct, so are its
constants, and every constraint has as many tokens as its kind takes. Then its superclass has to be
among the classes before it, and its name must not be.
-/

namespace FuzzyHierarchy

/-- Steps that each add one value, refused when its key is there already, add a list of values
exactly when all keys stay distinct. -/
theorem foldlM_eq_ok_iff_of_add {ε σ α κ : Type} {step : σ → α → Except ε σ} (values : σ → List α)
    (key : α → κ)
    (hok : ∀ s x next, step s x = .ok next ↔
      key x ∉ (values s).map key ∧ values next = values s ++ [x])
    (herror : ∀ s x e, step s x = .error e → key x ∈ (values s).map key)
    (hnodup : ∀ s, ((values s).map key).Nodup) (hext : ∀ s s', values s = values s' → s = s')
    {xs : List α} {s next : σ} :
    xs.foldlM step s = .ok next ↔
      ((values s ++ xs).map key).Nodup ∧ values next = values s ++ xs := by
  induction xs generalizing s with
  | nil =>
    rw [List.append_nil, and_iff_right (hnodup s)]
    constructor
    · intro h
      cases h
      rfl
    · intro h
      rw [hext next s h]
      rfl
  | cons x xs ih =>
    rw [List.foldlM_cons]
    cases hstep : step s x with
    | error e =>
      refine iff_of_false (fun h => by cases h) fun ⟨h, _⟩ => ?_
      rw [List.map_append, List.nodup_append] at h
      exact h.2.2 _ (herror s x e hstep) (key x) (by simp) rfl
    | ok middle =>
      obtain ⟨-, hmiddle⟩ := (hok s x middle).1 hstep
      exact (ih (s := middle)).trans (by rw [hmiddle, List.append_assoc, List.singleton_append])

theorem Variables.declareAll_eq_ok_iff {vars next : Variables} {owner : String}
    {names : List String} :
    vars.declareAll owner names = .ok next ↔
      (vars.toList ++ names).Nodup ∧ next.toList = vars.toList ++ names := by
  refine (foldlM_eq_ok_iff_of_add Variables.toList id ?_ ?_ ?_
    fun _ _ => Variables.ext).trans ?_ <;> simp only [List.map_id, id_eq]
  · exact fun _ _ _ => declare_eq_ok_iff
  · exact fun _ _ _ h => (declare_eq_error_iff.1 h).1
  · exact Variables.nodup

theorem Constants.declareAll_eq_ok_iff {consts next : Constants} {owner : String}
    {entries : List (String × String)} :
    consts.declareAll owner entries = .ok next ↔
      ((consts.toList ++ entries).map Prod.fst).Nodup ∧ next.toList = consts.toList ++ entries :=
  foldlM_eq_ok_iff_of_add Constants.toList Prod.fst (fun _ _ _ => declare_eq_ok_iff)
    (fun _ _ _ h => (declare_eq_error_iff.1 h).1) Constants.nodup fun _ _ => Constants.ext

/-! ## Constraints -/

theorem Constraints.assembleAll_eq_ok_iff {constraints next : Constraints}
    {parts : List (Constraint.Kind × List String)} :
    constraints.assembleAll parts = .ok next ↔
      ∃ added, List.Forall₂
        (fun part constraint => Constraint.ofTokens part.1 part.2 = .ok constraint) parts added ∧
          next.toList = constraints.toList ++ added := by
  induction parts generalizing constraints with
  | nil =>
    constructor
    · intro h
      cases h
      exact ⟨[], .nil, (List.append_nil _).symm⟩
    · rintro ⟨_, ⟨⟩, hnext⟩
      rw [List.append_nil] at hnext
      exact congrArg Except.ok (congrArg Constraints.mk hnext.symm)
  | cons part parts ih =>
    rw [assembleAll, List.foldlM_cons, assemble]
    cases hpart : Constraint.ofTokens part.1 part.2 with
    | error e =>
      refine iff_of_false (fun h => by cases h) ?_
      rintro ⟨_, hadded, -⟩
      obtain ⟨_, _, hok, -, -⟩ := List.forall₂_cons_left_iff.1 hadded
      rw [hpart] at hok
      cases hok
    | ok constraint =>
      change (constraints.push constraint).assembleAll parts = .ok next ↔ _
      rw [ih, toList_push]
      constructor
      · rintro ⟨added, hadded, hnext⟩
        exact ⟨constraint :: added, .cons hpart hadded, by simpa using hnext⟩
      · rintro ⟨_, hadded, hnext⟩
        obtain ⟨_, added, hok, hrest, rfl⟩ := List.forall₂_cons_left_iff.1 hadded
        rw [hpart] at hok
        cases hok
        exact ⟨added, hrest, by simpa using hnext⟩

theorem Constraint.exists_ofTokens_iff {kind : Kind} {tokens : List String} :
    (∃ constraint, ofTokens kind tokens = .ok constraint) ↔ tokens.length = kind.arity := by
  cases h : ofTokens kind tokens with
  | ok constraint =>
    refine iff_of_true ⟨constraint, rfl⟩ ?_
    by_contra hne
    rw [ofTokens_eq_error_iff.2 ⟨hne, rfl⟩] at h
    cases h
  | error e => exact iff_of_false (by simp) (ofTokens_eq_error_iff.1 h).1

namespace Declaration

variable {declaration : Declaration} {registration : Registration}

/-! ## One declaration -/

/-- The name of the superclass that a declaration gives, if it gives one. -/
def parent? (declaration : Declaration) : Option String := declaration.superclass?.filter (· ≠ "")

/-- What a declaration needs by itself. -/
structure WellWritten (declaration : Declaration) : Prop where
  vars_nodup : declaration.vars.Nodup
  consts_nodup : (declaration.consts.map Prod.fst).Nodup
  arity : ∀ part ∈ declaration.constraints, part.2.length = part.1.arity

/-- A class body holds what a declaration writes down. -/
structure Describes (declaration : Declaration) (body : ClassBody) : Prop where
  vars : body.vars.toList = declaration.vars
  consts : body.consts.toList = declaration.consts
  constraints : List.Forall₂
    (fun part constraint => Constraint.ofTokens part.1 part.2 = .ok constraint)
    declaration.constraints body.constraints.toList
  hidden : body.hidden = declaration.hidden

theorem exists_describes_iff : (∃ body, declaration.Describes body) ↔ declaration.WellWritten := by
  constructor
  · rintro ⟨body, h⟩
    refine ⟨h.vars ▸ body.vars.nodup, h.consts ▸ body.consts.nodup, fun part hpart => ?_⟩
    exact Constraint.exists_ofTokens_iff.1 (exists_forall₂_iff.1 ⟨_, h.constraints⟩ part hpart)
  · intro h
    obtain ⟨items, hitems⟩ := exists_forall₂_iff.2 fun part hpart =>
      Constraint.exists_ofTokens_iff.2 (h.arity part hpart)
    exact ⟨{
      vars := ⟨declaration.vars, h.vars_nodup⟩
      consts := ⟨declaration.consts, h.consts_nodup⟩
      constraints := ⟨items⟩
      hidden := declaration.hidden }, rfl, rfl, hitems, rfl⟩

/-- The registration of a declaration asks for a class of the same name and superclass with what
the declaration writes down. -/
theorem registration_eq_ok_iff :
    declaration.registration = .ok registration ↔
      declaration.Describes registration.toClassBody ∧ registration.name = declaration.name ∧
        registration.superclass? = declaration.superclass? := by
  constructor
  · intro h
    obtain ⟨vars, hvars, h⟩ := exists_of_bind_eq_ok h
    obtain ⟨consts, hconsts, h⟩ := exists_of_bind_eq_ok h
    obtain ⟨constraints, hconstraints, h⟩ := exists_of_bind_eq_ok h
    cases h
    obtain ⟨items, hitems, hsame⟩ := Constraints.assembleAll_eq_ok_iff.1 hconstraints
    exact ⟨⟨(Variables.declareAll_eq_ok_iff.1 hvars).2,
      (Constants.declareAll_eq_ok_iff.1 hconsts).2, hsame ▸ hitems, rfl⟩, rfl, rfl⟩
  · rintro ⟨h, hname, hsuper⟩
    rw [Declaration.registration,
      bind_of_eq_ok (Variables.declareAll_eq_ok_iff.2 ⟨h.vars ▸ registration.vars.nodup, h.vars⟩),
      bind_of_eq_ok (Constants.declareAll_eq_ok_iff.2
        ⟨h.consts ▸ registration.consts.nodup, h.consts⟩),
      bind_of_eq_ok (Constraints.assembleAll_eq_ok_iff.2 ⟨_, h.constraints, rfl⟩),
      ← hname, ← hsuper, ← h.hidden]
    rfl

/-- A class has the name that a declaration gives, and holds what it writes down. -/
def Declares (declaration : Declaration) (cls : FuzzyClass) : Prop :=
  cls.name = declaration.name ∧ declaration.Describes cls.toClassBody

theorem Declares.mem_vars_iff {cls : FuzzyClass} (h : declaration.Declares cls) {name : String} :
    name ∈ cls.vars ↔ name ∈ declaration.vars := h.2.vars ▸ Iff.rfl

/-- The class that a declaration makes of a body in a registry. -/
def classOf (declaration : Declaration) (registry : Registry) (body : ClassBody) : FuzzyClass :=
  { body with
    name := declaration.name
    superclass? := declaration.parent?.bind registry.idOf? }

/-- What a list of declarations needs after classes with the names `known`. -/
def Declarable : List String → List Declaration → Prop
  | _, [] => True
  | known, declaration :: declarations =>
    declaration.WellWritten ∧ (∀ parent ∈ declaration.parent?, parent ∈ known) ∧
      declaration.name ∉ known ∧ Declarable (known ++ [declaration.name]) declarations

end Declaration

/-! ## Declarations one after another -/

namespace Blueprint

variable {blueprint next : Blueprint} {declaration : Declaration} {declarations : List Declaration}
  {id : ClassId}

/-- A declaration that does not come to a registration is refused before anything is changed. -/
theorem effect_declare (declaration : Declaration) (blueprint : Blueprint) :
    (declare declaration).effect blueprint =
      match declaration.registration with
      | .ok registration => (register registration).effect blueprint
      | .error e => (.error e, blueprint) := by
  unfold declare
  cases declaration.registration <;> rfl

theorem exists_registration_of_declare
    (h : (declare declaration).effect blueprint = (.ok id, next)) :
    ∃ registration, declaration.registration = .ok registration ∧
      (register registration).effect blueprint = (.ok id, next) := by
  rw [effect_declare] at h
  cases hregistration : declaration.registration with
  | error e => simp [hregistration] at h
  | ok registration => exact ⟨registration, rfl, by simpa [hregistration] using h⟩

/-- What declaring a class needs, and what it adds. -/
theorem declare_eq_ok_iff :
    (declare declaration).effect blueprint = (.ok id, next) ↔
      (∀ parent ∈ declaration.parent?, parent ∈ blueprint.registry.names) ∧
        declaration.name ∉ blueprint.registry.names ∧
        id = .entry blueprint.registry.toList.length ∧
          ∃ body, declaration.Describes body ∧ next = {
            blueprint with
            registry :=
              blueprint.registry.push (declaration.classOf blueprint.registry body) } := by
  constructor
  · intro h
    obtain ⟨registration, hregistration, h⟩ := exists_registration_of_declare h
    obtain ⟨hbody, hname, hsuper⟩ := Declaration.registration_eq_ok_iff.1 hregistration
    obtain ⟨registry, hregister, rfl⟩ := register_eq_ok_iff.1 h
    obtain ⟨hparent, hfree, hid, rfl⟩ := Registry.register_eq_ok_iff.1 hregister
    have hsame : registration.parent? = declaration.parent? := by
      rw [Registration.parent?, hsuper, Declaration.parent?]
    refine ⟨hsame ▸ hparent, hname ▸ hfree, hid, registration.toClassBody, hbody, ?_⟩
    rw [Registry.classOf, Declaration.classOf, hsame, hname]
  · rintro ⟨hparent, hfree, rfl, body, hbody, rfl⟩
    have hregistration : declaration.registration = .ok
        { body with name := declaration.name, superclass? := declaration.superclass? } :=
      Declaration.registration_eq_ok_iff.2 ⟨hbody, rfl, rfl⟩
    simp only [effect_declare, hregistration]
    exact register_eq_ok_iff.2 ⟨_, Registry.register_eq_ok_iff.2 ⟨hparent, hfree, rfl, rfl⟩, rfl⟩

theorem Reachable.declare (hreachable : blueprint.Reachable)
    (h : (declare declaration).effect blueprint = (.ok id, next)) : next.Reachable := by
  obtain ⟨registration, -, hregister⟩ := exists_registration_of_declare h
  exact tryRegister_of_eq_ok hregister ▸ hreachable.tryRegister registration

theorem exists_declare_iff :
    (∃ id next, (declare declaration).effect blueprint = (.ok id, next)) ↔
      declaration.WellWritten ∧
        (∀ parent ∈ declaration.parent?, parent ∈ blueprint.registry.names) ∧
          declaration.name ∉ blueprint.registry.names := by
  constructor
  · rintro ⟨id, next, h⟩
    obtain ⟨hparent, hfree, -, body, hbody, -⟩ := declare_eq_ok_iff.1 h
    exact ⟨Declaration.exists_describes_iff.1 ⟨body, hbody⟩, hparent, hfree⟩
  · rintro ⟨hwritten, hparent, hfree⟩
    obtain ⟨body, hbody⟩ := Declaration.exists_describes_iff.2 hwritten
    exact ⟨_, _, declare_eq_ok_iff.2 ⟨hparent, hfree, rfl, body, hbody, rfl⟩⟩

theorem names_of_declare (h : (declare declaration).effect blueprint = (.ok id, next)) :
    next.registry.names = blueprint.registry.names ++ [declaration.name] := by
  obtain ⟨-, -, -, body, -, rfl⟩ := declare_eq_ok_iff.1 h
  exact Registry.names_push _ _

/-- Declaring a list of classes adds a class for each of them. -/
theorem declareAll_eq_ok (hreachable : blueprint.Reachable)
    (h : blueprint.declareAll declarations = .ok next) :
    next.Reachable ∧ ∃ classes, List.Forall₂ Declaration.Declares declarations classes ∧
      next.registry.toList = blueprint.registry.toList ++ classes := by
  induction declarations generalizing blueprint with
  | nil =>
    cases h
    exact ⟨hreachable, [], .nil, (List.append_nil _).symm⟩
  | cons declaration declarations ih =>
    obtain ⟨id, middle, hdeclare, hrest⟩ := InPlace.all_cons_eq_ok_iff.1 h
    obtain ⟨hnext, classes, hclasses, happend⟩ := ih (hreachable.declare hdeclare) hrest
    obtain ⟨-, -, -, body, hbody, rfl⟩ := declare_eq_ok_iff.1 hdeclare
    refine ⟨hnext, declaration.classOf blueprint.registry body :: classes,
      .cons ⟨rfl, hbody⟩ hclasses, ?_⟩
    rw [happend, Registry.toList_push, List.append_assoc, List.singleton_append]

theorem declareAll_start_eq_ok {settings : Settings}
    (h : declareAll { settings } declarations = .ok next) :
    next.Reachable ∧ List.Forall₂ Declaration.Declares declarations next.registry.toList := by
  obtain ⟨hreachable, classes, hclasses, happend⟩ := declareAll_eq_ok (.start settings) h
  rw [happend]
  exact ⟨hreachable, hclasses⟩

/-- A list of declarations is registered exactly when each finds what it needs before it. -/
theorem exists_declareAll_iff :
    (∃ next, blueprint.declareAll declarations = .ok next) ↔
      Declaration.Declarable blueprint.registry.names declarations := by
  induction declarations generalizing blueprint with
  | nil => exact iff_of_true ⟨blueprint, rfl⟩ trivial
  | cons declaration declarations ih =>
    rw [Declaration.Declarable]
    constructor
    · rintro ⟨next, h⟩
      obtain ⟨id, middle, hdeclare, hrest⟩ := InPlace.all_cons_eq_ok_iff.1 h
      obtain ⟨hwritten, hparent, hfree⟩ := exists_declare_iff.1 ⟨id, middle, hdeclare⟩
      exact ⟨hwritten, hparent, hfree, names_of_declare hdeclare ▸ ih.1 ⟨next, hrest⟩⟩
    · rintro ⟨hwritten, hparent, hfree, hrest⟩
      obtain ⟨id, middle, hdeclare⟩ := exists_declare_iff.2 ⟨hwritten, hparent, hfree⟩
      obtain ⟨next, hnext⟩ := ih.2 (names_of_declare hdeclare ▸ hrest)
      exact ⟨next, InPlace.all_cons_eq_ok_iff.2 ⟨id, middle, hdeclare, hnext⟩⟩

end Blueprint

end FuzzyHierarchy
