import FuzzyHierarchy.Proofs.Declaration.Registration

/-
Which lists of declarations give a classifier. A list is accepted exactly when each declaration is
well written, no class is declared twice, every superclass is declared before the classes that
extend it, and every constraint finds its names: a variable among those that a declaration gives
itself, and a target anywhere in the list.
-/

namespace FuzzyHierarchy

/-- What holds of every value and those before it holds of the first one and of the others. -/
theorem forall_split_cons_iff {α : Type} {xs : List α} {holds : List α → α → Prop} {x : α} :
    (∀ earlier y later, x :: xs = earlier ++ y :: later → holds earlier y) ↔
      holds [] x ∧ ∀ earlier y later, xs = earlier ++ y :: later → holds (x :: earlier) y := by
  constructor
  · intro h
    refine ⟨h [] x xs rfl, fun earlier y later hsplit => h (x :: earlier) y later ?_⟩
    rw [hsplit, List.cons_append]
  · rintro ⟨hfirst, hothers⟩ earlier y later hsplit
    cases earlier with
    | nil =>
      cases hsplit
      exact hfirst
    | cons z earlier =>
      cases hsplit
      exact hothers earlier y later rfl

namespace Declaration

/-- The list has a declaration called `target` that gives the variable `name` itself. -/
def Supplies (declarations : List Declaration) (target name : String) : Prop :=
  ∃ declaration ∈ declarations, declaration.name = target ∧ name ∈ declaration.vars

/-- The names that a constraint of `owner` uses, written down as tokens, are declared. -/
def Finds (declarations : List Declaration) (owner : Declaration) :
    Constraint.Kind → List String → Prop
  | .simpleFeature, [own, _] => own ∈ owner.vars
  | .simpleRelation, [target, remote, own, _] =>
    own ∈ owner.vars ∧ Supplies declarations target remote
  | .complexRelation, [target, remote, first, second, _] =>
    first ∈ owner.vars ∧ second ∈ owner.vars ∧ Supplies declarations target remote
  | .inverseRelation, [own, target, first, second, _] =>
    own ∈ owner.vars ∧ Supplies declarations target first ∧ Supplies declarations target second
  | _, _ => False

/-- What a list of declarations needs to give a classifier. -/
structure Accepted (declarations : List Declaration) : Prop where
  written : ∀ declaration ∈ declarations, declaration.WellWritten
  names_nodup : (declarations.map (·.name)).Nodup
  superclass_earlier : ∀ earlier declaration later,
    declarations = earlier ++ declaration :: later → ∀ parent,
      declaration.superclass? = some parent → parent ≠ "" → parent ∈ earlier.map (·.name)
  found : ∀ declaration ∈ declarations, ∀ part ∈ declaration.constraints,
    Finds declarations declaration part.1 part.2

variable {declaration owner : Declaration} {declarations : List Declaration} {registry : Registry}
  {cls : FuzzyClass}

theorem mem_parent?_iff {parent : String} :
    parent ∈ declaration.parent? ↔ declaration.superclass? = some parent ∧ parent ≠ "" := by
  simp [parent?, Option.filter_eq_some_iff]

/-! ## What is registered -/

theorem declarable_iff (known : List String) :
    Declarable known declarations ↔
      (∀ declaration ∈ declarations, declaration.WellWritten) ∧
        (declarations.map (·.name)).Nodup ∧
        (∀ declaration ∈ declarations, declaration.name ∉ known) ∧
        ∀ earlier declaration later, declarations = earlier ++ declaration :: later →
          ∀ parent ∈ declaration.parent?, parent ∈ known ++ earlier.map (·.name) := by
  induction declarations generalizing known with
  | nil => simp [Declarable]
  | cons first declarations ih =>
    -- the names that follow differ from the first as well as from the known ones
    have hnew : (∀ declaration ∈ declarations, declaration.name ∉ known ++ [first.name]) ↔
        (∀ declaration ∈ declarations, declaration.name ∉ known) ∧
          first.name ∉ declarations.map (·.name) := by
      simp only [List.mem_append, List.mem_singleton, not_or, List.mem_map, not_exists, not_and,
        forall_and]
    rw [Declarable, ih, hnew, forall_split_cons_iff, List.forall_mem_cons,
      List.forall_mem_cons, List.map_cons, List.nodup_cons]
    simp only [List.map_nil, List.append_nil, List.map_cons, List.append_assoc,
      List.singleton_append]
    tauto

/-! ## What resolves -/

section Resolution

variable (h : List.Forall₂ Declares declarations registry.toList)

include h

theorem names_eq (hwf : registry.WellFormed) : registry.names = declarations.map (·.name) := by
  rw [hwf.names_eq]
  generalize registry.toList = classes at h
  induction h with
  | nil => rfl
  | cons hdeclared _ ih => rw [List.map_cons, List.map_cons, hdeclared.1, ih]

theorem supplies_iff {target name : String} :
    Supplies declarations target name ↔
      ∃ scope ∈ registry.toList, scope.name = target ∧ name ∈ scope.vars :=
  exists_mem_iff_of_forall₂ h fun _ _ hdeclared => by rw [hdeclared.1, hdeclared.mem_vars_iff]

theorem resolves_iff_finds (hwf : registry.WellFormed) (howner : Declares owner cls)
    {kind : Constraint.Kind} {tokens : List String} {constraint : Constraint}
    (htokens : Constraint.ofTokens kind tokens = .ok constraint) :
    (∀ reference ∈ constraint.references, registry.Resolves cls reference) ↔
      Finds declarations owner kind tokens := by
  have htarget : ∀ {target name : String}, Supplies declarations target name →
      target ∈ registry.names := by
    rintro target name ⟨declaration, hmem, rfl, -⟩
    exact names_eq h hwf ▸ List.mem_map_of_mem hmem
  rw [Constraint.forall_mem_references_iff]
  simp only [Registry.Resolves, howner.mem_vars_iff, ← supplies_iff h]
  unfold Constraint.ofTokens at htokens
  split at htokens <;> cases htokens <;>
    simp only [Constraint.ownVariables, Constraint.target?, Constraint.targetVariables, Finds,
      List.forall_mem_cons, Option.mem_def, Option.some.injEq, forall_eq', List.not_mem_nil,
      false_implies, implies_true, and_true]
  · simp
  all_goals tauto

theorem consistent_iff_finds (hwf : registry.WellFormed) :
    registry.Consistent ↔ ∀ declaration ∈ declarations, ∀ part ∈ declaration.constraints,
      Finds declarations declaration part.1 part.2 := by
  refine (forall_mem_iff_of_forall₂ h fun declaration cls hdeclared => ?_).symm
  exact forall_mem_iff_of_forall₂ hdeclared.2.constraints fun part constraint htokens =>
    (resolves_iff_finds h hwf hdeclared htokens).symm

end Resolution

/-- A list of declarations gives a classifier exactly when it has what it needs. -/
theorem exists_classifier_iff_accepted (settings : Settings) (declarations : List Declaration) :
    (∃ blueprint classifier, Blueprint.declareAll { settings } declarations = .ok blueprint ∧
      blueprint.finalize = .ok (.ok classifier)) ↔ Accepted declarations := by
  let start : Blueprint := { settings }
  have hregistered : (∃ next, start.declareAll declarations = .ok next) ↔ _ :=
    Blueprint.exists_declareAll_iff.trans (declarable_iff [])
  constructor
  · rintro ⟨blueprint, classifier, hdeclare, hfinalize⟩
    obtain ⟨hwritten, hnames, -, hsuper⟩ := hregistered.1 ⟨blueprint, hdeclare⟩
    obtain ⟨hreachable, hdeclares⟩ := Blueprint.declareAll_start_eq_ok hdeclare
    refine ⟨hwritten, hnames, fun earlier declaration later hsplit parent hparent hne => ?_, ?_⟩
    · exact hsuper earlier declaration later hsplit parent (mem_parent?_iff.2 ⟨hparent, hne⟩)
    · rw [← consistent_iff_finds hdeclares hreachable.wellFormed]
      exact Blueprint.consistent_of_finalize hreachable.wellFormed hfinalize
  · intro h
    have hsuper : ∀ earlier declaration later, declarations = earlier ++ declaration :: later →
        ∀ parent ∈ declaration.parent?, parent ∈ [] ++ earlier.map (·.name) := by
      intro earlier declaration later hsplit parent hparent
      obtain ⟨hparent, hne⟩ := mem_parent?_iff.1 hparent
      exact h.superclass_earlier earlier declaration later hsplit parent hparent hne
    obtain ⟨blueprint, hdeclare⟩ := hregistered.2 ⟨h.written, h.names_nodup, by simp, hsuper⟩
    obtain ⟨hreachable, hdeclares⟩ := Blueprint.declareAll_start_eq_ok hdeclare
    obtain ⟨classifier, hfinalize⟩ := (Blueprint.exists_finalize_iff hreachable.wellFormed).2
      ((consistent_iff_finds hdeclares hreachable.wellFormed).2 h.found)
    exact ⟨blueprint, classifier, hdeclare, hfinalize⟩

end Declaration

end FuzzyHierarchy
