import FuzzyHierarchy.Proofs.Classifier.Sequence
import FuzzyHierarchy.Proofs.Declaration.Rearrangement

/-
Declaring the same classes again, in the order in which they are evaluated. Where no class is
cyclic, each class comes after all that it refers to in this order, its superclass among them, so
the declarations are accepted as well, and none of them refers to a later one.

Main statement: the second classifier evaluates its classes in the order in which they were
declared, which is that of the first one, and none of them is cyclic.
-/

namespace FuzzyHierarchy

/-! ## Lists in the order of their keys -/

section Keys

variable {α κ : Type} [DecidableEq κ] {key : α → κ} {xs : List α} {keys : List κ}

theorem map_key_filterMap_find? (hkeys : (xs.map key).Nodup) (h : keys ⊆ xs.map key) :
    (keys.filterMap fun k => xs.find? (key · == k)).map key = keys := by
  induction keys with
  | nil => rfl
  | cons k keys ih =>
    obtain ⟨hk, hrest⟩ := List.cons_subset.1 h
    obtain ⟨x, hx, rfl⟩ := List.mem_map.1 hk
    rw [List.filterMap_cons, find?_key_eq_some hkeys hx, List.map_cons, ih hrest]

/-- Looking up all keys in some order gives all values in this order. -/
theorem filterMap_find?_perm (hkeys : (xs.map key).Nodup) (h : keys.Perm (xs.map key)) :
    (keys.filterMap fun k => xs.find? (key · == k)).Perm xs := by
  have hfound : (keys.filterMap fun k => xs.find? (key · == k)).Nodup := by
    refine List.Nodup.of_map key ?_
    rw [map_key_filterMap_find? hkeys h.subset]
    exact h.nodup_iff.2 hkeys
  rw [List.perm_ext_iff_of_nodup hfound hkeys.of_map]
  intro x
  rw [List.mem_filterMap]
  constructor
  · rintro ⟨k, -, hfind⟩
    exact List.mem_of_find?_eq_some hfind
  · intro hx
    exact ⟨key x, h.mem_iff.2 (List.mem_map_of_mem hx), find?_key_eq_some hkeys hx⟩

end Keys

/-- The declarations in the order of a list of their names. -/
def Declaration.arranged (declarations : List Declaration) (names : List String) :
    List Declaration :=
  names.filterMap fun name => declarations.find? (·.name == name)

namespace Blueprint

variable {settings settings' : Settings} {ds es : List Declaration} {blueprint again : Blueprint}
  {classifier : Classifier}

/-! ## Declarations in a settled order -/

/-- A registered declaration refers to its superclass, which is registered as well. -/
theorem refers_parent (hdeclare : declareAll { settings } ds = .ok blueprint)
    {declaration : Declaration} (hmem : declaration ∈ ds) {parent : String}
    (hparent : parent ∈ declaration.parent?) :
    Registration.Refers blueprint.registry.registrations declaration.name parent := by
  obtain ⟨hreachable, hdeclares⟩ := declareAll_start_eq_ok hdeclare
  obtain ⟨registration, hregistration, asked, hasked, rfl⟩ :=
    exists_mem_of_forall₂ (forall₂_registers hdeclare) hmem
  obtain ⟨-, hname, hsuper⟩ := Declaration.registration_eq_ok_iff.1 hasked
  have hcanonical : asked.canonical.superclass? = some parent := by
    rw [Registration.canonical, Registration.parent?, hsuper]
    exact hparent
  refine ⟨asked.canonical, hregistration, hname, ?_, ?_⟩
  · rw [Registration.refersTo, hcanonical]
    exact List.mem_cons_self
  · obtain ⟨-, -, -, hearlier⟩ :=
      (Declaration.declarable_iff _).1 (exists_declareAll_iff.1 ⟨_, hdeclare⟩)
    obtain ⟨earlier, later, rfl⟩ := List.append_of_mem hmem
    have hbefore : parent ∈ earlier.map (·.name) :=
      hearlier earlier declaration later rfl parent hparent
    rw [← hreachable.wellFormed.names_eq_map_registrations,
      Declaration.names_eq hdeclares hreachable.wellFormed, List.map_append]
    exact List.mem_append_left _ hbefore

/-- Where every name comes after those that it refers to, the declarations are accepted. -/
theorem exists_declareAll_of_settled (hdeclare : declareAll { settings } ds = .ok blueprint)
    (hperm : es.Perm ds)
    (hsettled : Registration.Settled blueprint.registry.registrations (es.map (·.name)))
    (settings' : Settings) : ∃ again, declareAll { settings := settings' } es = .ok again := by
  obtain ⟨hwritten, hnames, -, -⟩ :=
    (Declaration.declarable_iff _).1 (exists_declareAll_iff.1 ⟨_, hdeclare⟩)
  refine exists_declareAll_iff.2 ((Declaration.declarable_iff _).2 ⟨?_, ?_, ?_, ?_⟩)
  · exact fun declaration hmem => hwritten declaration (hperm.subset hmem)
  · exact (hperm.map _).nodup_iff.2 hnames
  · exact fun declaration _ hknown => by cases hknown
  · rintro earlier declaration later rfl parent hparent
    have hmem : declaration ∈ ds := hperm.subset (by simp)
    have hrefers := refers_parent hdeclare hmem hparent
    exact List.mem_append_right _
      (hsettled _ declaration.name (later.map (·.name)) (by simp) parent hrefers)

/-- A registry whose names are settled as they are registered is evaluated in this order. -/
theorem evaluationOrder_of_settled (hwf : blueprint.registry.WellFormed)
    (hfinalize : blueprint.finalize = .ok (.ok classifier))
    (hsettled : Registration.Settled blueprint.registry.registrations blueprint.registry.names) :
    classifier.schedule.cyclic = [] ∧
      classifier.evaluationOrder = .ok blueprint.registry.toList := by
  obtain ⟨s, hsolved, rfl⟩ := exists_solved_of_finalize hwf hfinalize
  obtain ⟨horder, hcyclic⟩ :=
    (hsolved.order_eq_range_iff hwf.closed_linkGraph).2 (hwf.backward_of_settled hsettled)
  refine ⟨congrArg (List.map ClassId.entry) hcyclic, ?_⟩
  change (s.order.toList.map ClassId.entry).mapM blueprint.registry.fetch = _
  rw [horder, Registry.size_linkGraph, ← hwf.ids_eq]
  exact Registry.mapM_fetch_eq_ok_iff.2 hwf.map_get?_ids

/-- Declarations that give a classifier give one in any settled order, and it is evaluated in this
order. -/
theorem exists_classifier_of_settled (hdeclare : declareAll { settings } ds = .ok blueprint)
    (hfinalize : blueprint.finalize = .ok (.ok classifier)) (hperm : es.Perm ds)
    (hsettled : Registration.Settled blueprint.registry.registrations (es.map (·.name)))
    (settings' : Settings) :
    ∃ again classifier' order', declareAll { settings := settings' } es = .ok again ∧
      again.finalize = .ok (.ok classifier') ∧ classifier'.schedule.cyclic = [] ∧
      classifier'.evaluationOrder = .ok order' ∧ order'.map (·.name) = es.map (·.name) := by
  obtain ⟨again, hagain⟩ := exists_declareAll_of_settled hdeclare hperm hsettled settings'
  obtain ⟨hreachable, -⟩ := declareAll_start_eq_ok hdeclare
  obtain ⟨hreachable', hdeclares'⟩ := declareAll_start_eq_ok hagain
  have hrearranges := rearranges_of_perm hperm.symm hdeclare hagain
  obtain ⟨classifier', hfinalize'⟩ : ∃ d, again.finalize = .ok (.ok d) := by
    rcases finalize_both_or_neither hrearranges hreachable hreachable' with
      ⟨-, hagain⟩ | ⟨⟨violation, hrefused⟩, -⟩
    · exact hagain
    · rw [hfinalize] at hrefused
      cases hrefused
  have hnames := Declaration.names_eq hdeclares' hreachable'.wellFormed
  have hsettled' := hsettled.of_perm hrearranges
  rw [← hnames] at hsettled'
  obtain ⟨hnone, horder⟩ :=
    evaluationOrder_of_settled hreachable'.wellFormed hfinalize' hsettled'
  exact ⟨again, classifier', _, hagain, hfinalize', hnone, horder,
    hreachable'.wellFormed.names_eq ▸ hnames⟩

/-! ## The main statement, with a superclass that is evaluated early as an example -/

/-- Where no class is cyclic, the declarations in the order of evaluation are accepted one after
another, they give a classifier again, and its classes are evaluated in the order of the first one,
without a cyclic class. -/
theorem redeclare_in_evaluationOrder (hdeclare : declareAll { settings } ds = .ok blueprint)
    (hfinalize : blueprint.finalize = .ok (.ok classifier) ∨
      ∃ report later, blueprint.finalizeReporting report = .ok (some classifier, later))
    (hacyclic : classifier.schedule.cyclic = []) (settings' : Settings) :
    ∃ order, classifier.evaluationOrder = .ok order ∧
      (Declaration.arranged ds (order.map (·.name))).Perm ds ∧
      (Declaration.arranged ds (order.map (·.name))).map (·.name) = order.map (·.name) ∧
      ∃ again classifier' order',
        declareAll { settings := settings' } (Declaration.arranged ds (order.map (·.name))) =
          .ok again ∧
        again.finalize = .ok (.ok classifier') ∧
        (∀ report, again.finalizeReporting report = .ok (some classifier', report)) ∧
        classifier'.schedule.cyclic = [] ∧ classifier'.evaluationOrder = .ok order' ∧
        order'.map (·.name) = order.map (·.name) := by
  obtain ⟨hreachable, hdeclares⟩ := declareAll_start_eq_ok hdeclare
  have hwf := hreachable.wellFormed
  have hanswer : blueprint.finalize = .ok (.ok classifier) := by
    rcases hfinalize with hfinalize | ⟨report, later, hreporting⟩
    · exact hfinalize
    · exact finalize_of_finalizeReporting hwf hreporting
  obtain ⟨hregistry, hscheduled⟩ := hreachable.scheduled hanswer
  obtain ⟨order, horder⟩ := Registry.exists_mapM_fetch fun id => (hscheduled.mem_order id).1
  have hclasses := Registry.mapM_fetch_eq_ok_iff.1 horder
  -- the classes are those of the declarations, so their names lead to the declarations
  have hnames := Declaration.names_eq hdeclares hwf
  have hkeys : (order.map (·.name)).Perm (ds.map (·.name)) :=
    hnames ▸ hwf.names_eq ▸ (hscheduled.classes_perm hwf hclasses).map (·.name)
  have hdistinct : (ds.map (·.name)).Nodup := hnames ▸ hwf.names_nodup
  have hperm : (Declaration.arranged ds (order.map (·.name))).Perm ds :=
    filterMap_find?_perm hdistinct hkeys
  have hsame : (Declaration.arranged ds (order.map (·.name))).map (·.name) = order.map (·.name) :=
    map_key_filterMap_find? hdistinct hkeys.subset
  have hsettled := hscheduled.settled_names hwf hacyclic hclasses
  rw [← hsame] at hsettled
  obtain ⟨again, classifier', order', hagain, hfinalize', hnone, horder', hnames'⟩ :=
    exists_classifier_of_settled hdeclare hanswer hperm hsettled settings'
  obtain ⟨hreachable', -⟩ := declareAll_start_eq_ok hagain
  refine ⟨order, ?_, hperm, hsame, again, classifier', order', hagain, hfinalize', ?_, hnone,
    horder', hnames'.trans hsame⟩
  · rw [Classifier.evaluationOrder, hregistry]
    exact horder
  · exact finalizeReporting_of_finalize hreachable'.wellFormed hfinalize'

/-- A shop refers to a puppy, and a puppy is a pet; both are declared after it. -/
def shopDeclared : List Declaration :=
  [{ name := "Shop", vars := ["price"],
     constraints := [(.simpleRelation, ["Puppy", "age", "price", "high"])] },
   { name := "Pet", vars := ["size"] },
   { name := "Puppy", superclass? := some "Pet", vars := ["age"],
     constraints := [(.simpleFeature, ["age", "young"])] }]

theorem redeclare_in_evaluationOrder_shopDeclared :
    ∃ blueprint classifier, declareAll {} shopDeclared = .ok blueprint ∧
      blueprint.finalize = .ok (.ok classifier) ∧ classifier.schedule.cyclic = [] ∧
      ∃ order, classifier.evaluationOrder = .ok order ∧
        order.map (·.name) = ["Pet", "Puppy", "Shop"] ∧
        ∃ again classifier' order',
          declareAll {} (Declaration.arranged shopDeclared ["Pet", "Puppy", "Shop"]) = .ok again ∧
          again.finalize = .ok (.ok classifier') ∧ classifier'.schedule.cyclic = [] ∧
          classifier'.evaluationOrder = .ok order' ∧
          order'.map (·.name) = ["Pet", "Puppy", "Shop"] := by
  obtain ⟨blueprint, classifier, hdeclare, hfinalize, hread⟩ := exists_classifier_of_map
    (show (declareAll {} shopDeclared).map (fun blueprint => blueprint.finalize.map
      (·.map fun classifier => (classifier.schedule.cyclic,
        classifier.evaluationOrder.map (·.map (·.name))))) =
      .ok (.ok (.ok ([], .ok ["Pet", "Puppy", "Shop"]))) by decide +kernel)
  obtain ⟨hacyclic, hnames⟩ := Prod.mk.inj hread
  obtain ⟨order, horder, -, -, again, classifier', order', hagain, hfinalize', -, hnone, horder',
    hsame⟩ := redeclare_in_evaluationOrder hdeclare (.inl hfinalize) hacyclic {}
  rw [horder] at hnames
  have hnames : order.map (·.name) = ["Pet", "Puppy", "Shop"] := Except.ok.inj hnames
  rw [hnames] at hagain hsame
  exact ⟨blueprint, classifier, hdeclare, hfinalize, hacyclic, order, horder, hnames, again,
    classifier', order', hagain, hfinalize', hnone, horder', hsame⟩

end Blueprint

end FuzzyHierarchy
