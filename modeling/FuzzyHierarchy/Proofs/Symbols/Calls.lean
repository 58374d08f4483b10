import FuzzyHierarchy.Constraint.Assembly
import FuzzyHierarchy.Symbols.Constants
import FuzzyHierarchy.Symbols.Variables
import Mathlib.Data.List.Forall2

/-
Filling the containers of a class by calls one after another, some of which are refused. A name is
refused from its second declaration on, whatever class the declarations are said to be of, and a
constraint is refused for the number of its tokens alone.

Main statement: which calls are refused and with what error, and what the containers hold after all
of them. A refused call changes nothing.
-/

namespace FuzzyHierarchy

open InPlace

/-! ## Declaring names -/

/-- A value at the end of a list is a first occurrence unless it is there before. -/
theorem eraseDups_concat (names : List String) (name : String) :
    (names ++ [name]).eraseDups =
      if name ∈ names then names.eraseDups else names.eraseDups ++ [name] := by
  rw [List.eraseDups_append]
  split
  · rename_i h
    simp [List.removeAll, h]
  · rename_i h
    simp [List.removeAll, h, List.eraseDups_cons]

/-- Calls that declare names, each of which is refused when the name is there and else adds it at
the end. -/
structure Declares {σ α : Type} (call : α → InPlace DeclarationError σ Unit)
    (names : σ → List String) (name : α → String) (refusal : α → DeclarationError) : Prop where
  refused : ∀ x s, name x ∈ names s → (call x).effect s = (.error (refusal x), s)
  accepted : ∀ x s, name x ∉ names s →
    ∃ next, (call x).effect s = (.ok (), next) ∧ names next = names s ++ [name x]

namespace Declares

variable {σ α : Type} {call : α → InPlace DeclarationError σ Unit} {names : σ → List String}
  {name : α → String} {refusal : α → DeclarationError} {start : σ}

theorem names_effect (h : Declares call names name refusal) (earlier : List α) (x : α) (s : σ)
    (hs : names s = (earlier.map name).eraseDups) :
    names ((call x).effect s).2 = ((earlier ++ [x]).map name).eraseDups := by
  have hmem : name x ∈ names s ↔ name x ∈ earlier.map name := by rw [hs, List.mem_eraseDups]
  rw [List.map_append, List.map_cons, List.map_nil, eraseDups_concat]
  by_cases hknown : name x ∈ names s
  · rw [h.refused x s hknown, if_pos (hmem.1 hknown), ← hs]
  · obtain ⟨next, heffect, hnext⟩ := h.accepted x s hknown
    rw [heffect, if_neg (mt hmem.2 hknown), ← hs]
    exact hnext

/-- The names are listed in the order of their first calls. -/
theorem names_each (h : Declares call names name refusal) (hstart : names start = [])
    (calls : List α) : names (each call calls start).2 = (calls.map name).eraseDups :=
  each_holds (fun earlier s => names s = (earlier.map name).eraseDups) h.names_effect [] hstart
    calls

/-- A call is refused when its name is that of an earlier one. -/
theorem answers_each (h : Declares call names name refusal) (hstart : names start = [])
    (calls : List α) :
    (each call calls start).1 = calls.mapIdx fun k x =>
      if name x ∈ (calls.take k).map name then .error (refusal x) else .ok () := by
  refine each_answers (fun earlier s => names s = (earlier.map name).eraseDups)
    (fun earlier x => if name x ∈ earlier.map name then .error (refusal x) else .ok ())
    h.names_effect ?_ [] hstart calls
  intro earlier x s hs
  have hmem : name x ∈ names s ↔ name x ∈ earlier.map name := by rw [hs, List.mem_eraseDups]
  by_cases hknown : name x ∈ names s
  · rw [h.refused x s hknown, if_pos (hmem.1 hknown)]
  · obtain ⟨next, heffect, -⟩ := h.accepted x s hknown
    rw [heffect, if_neg (mt hmem.2 hknown)]

end Declares

/-! ## Variables -/

namespace Variables

/-- A call that declares the variable `name` of the class `owner`. -/
structure Call where
  owner : String
  name : String

def Call.perform (call : Call) : InPlace DeclarationError Variables Unit :=
  declareInPlace call.owner call.name

def Call.refusal (call : Call) : DeclarationError :=
  .duplicateSymbol call.owner call.name .variableName

theorem declares : Declares Call.perform toList (·.name) Call.refusal := by
  constructor
  · intro call vars htaken
    rw [Call.perform, effect_declareInPlace, declare_eq_ite, if_pos (contains_eq_true_iff.2 htaken)]
    rfl
  · intro call vars hfree
    rw [Call.perform, effect_declareInPlace, declare_eq_ite,
      if_neg (mt contains_eq_true_iff.1 hfree)]
    exact ⟨_, rfl, toList_insert_of_notMem hfree⟩

end Variables

/-! ## Constants -/

namespace Constants

/-- A call that declares the constant `name` of the class `owner` with its value. -/
structure Call where
  owner : String
  name : String
  value : String

def Call.perform (call : Call) : InPlace DeclarationError Constants Unit :=
  declareInPlace call.owner call.name call.value

def Call.refusal (call : Call) : DeclarationError :=
  .duplicateSymbol call.owner call.name .constantName

variable {consts : Constants} {call : Call} {name value : String}

theorem Call.effect_of_mem (h : call.name ∈ consts.names) :
    call.perform.effect consts = (.error call.refusal, consts) := by
  rw [perform, effect_declareInPlace, declare_eq_ite, if_pos (contains_eq_true_iff.2 h)]
  rfl

theorem Call.effect_of_notMem (h : call.name ∉ consts.names) :
    call.perform.effect consts = (.ok (), consts.insert call.name call.value) := by
  rw [perform, effect_declareInPlace, declare_eq_ite, if_neg (mt contains_eq_true_iff.1 h)]
  rfl

theorem names_insert_of_notMem (h : name ∉ consts.names) :
    (consts.insert name value).names = consts.names ++ [name] := by
  change (consts.insert name value).toList.map Prod.fst = _
  rw [toList_insert_of_notMem h, List.map_append]
  rfl

theorem declares : Declares Call.perform names (·.name) Call.refusal where
  refused _ _ htaken := Call.effect_of_mem htaken
  accepted _ _ hfree := ⟨_, Call.effect_of_notMem hfree, names_insert_of_notMem hfree⟩

theorem get?_insert_of_notMem (h : name ∉ consts.names) (other : String) :
    (consts.insert name value).get? other =
      (consts.get? other).or (if name = other then some value else none) := by
  change (consts.insert name value).toList.lookup other = _
  rw [toList_insert_of_notMem h, List.lookup_append]
  by_cases hsame : name = other
  · subst hsame
    simp [get?, toList]
  · have hother : (other == name) = false := beq_false_of_ne (Ne.symm hsame)
    simp [get?, toList, List.lookup_cons, hsame, hother]

/-- What a map gives to the names after some calls is what the first calls with them gave. -/
theorem get?_effect (earlier : List Call) (call : Call) (consts : Constants)
    (h : ∀ name, consts.get? name = (earlier.find? (·.name = name)).map (·.value)) (name : String) :
    (call.perform.effect consts).2.get? name =
      ((earlier ++ [call]).find? (·.name = name)).map (·.value) := by
  rw [List.find?_append]
  by_cases hknown : call.name ∈ consts.names
  · rw [Call.effect_of_mem hknown]
    by_cases hsame : call.name = name
    · have hfound : consts.get? name ≠ none := by
        rwa [ne_eq, get?_eq_none_iff, Classical.not_not, ← hsame]
      rw [h name] at hfound ⊢
      cases hfind : earlier.find? (·.name = name) with
      | none => simp [hfind] at hfound
      | some first => rfl
    · simp [hsame, h name]
  · rw [Call.effect_of_notMem hknown, get?_insert_of_notMem hknown, h name]
    by_cases hsame : call.name = name <;> simp [hsame]

/-- The first call with a name gives it its value. -/
theorem get?_each (calls : List Call) (name : String) :
    (each Call.perform calls ∅).2.get? name = (calls.find? (·.name = name)).map (·.value) :=
  each_holds (fun earlier (consts : Constants) => ∀ name,
    consts.get? name = (earlier.find? (·.name = name)).map (·.value)) get?_effect []
    (s := ∅) (fun _ => rfl) calls name

end Constants

/-! ## Constraints -/

namespace Constraint

/-- The tokens of a constraint, in the order in which it is put together from them. -/
def tokens : Constraint → List String
  | simpleFeature own label => [own, label]
  | simpleRelation target remote own label => [target, remote, own, label]
  | complexRelation target remote first second label => [target, remote, first, second, label]
  | inverseRelation own target first second label => [own, target, first, second, label]

theorem length_tokens (constraint : Constraint) :
    constraint.tokens.length = constraint.kind.arity := by
  cases constraint <;> rfl

theorem ofTokens_eq_ok_iff {kind : Kind} {tokens : List String} {constraint : Constraint} :
    ofTokens kind tokens = .ok constraint ↔
      constraint.kind = kind ∧ constraint.tokens = tokens := by
  constructor
  · intro h
    unfold ofTokens at h
    split at h <;> cases h <;> exact ⟨rfl, rfl⟩
  · rintro ⟨rfl, rfl⟩
    cases constraint <;> rfl

end Constraint

namespace Constraints

/-- A call that adds a constraint, put together from its tokens or as it is. -/
inductive Call where
  | assemble (kind : Constraint.Kind) (tokens : List String)
  | push (constraint : Constraint)

namespace Call

def perform : Call → InPlace DeclarationError Constraints Unit
  | assemble kind tokens => assembleInPlace kind tokens
  | push constraint => pushInPlace constraint

/-- The answer to a call. Only the number of tokens counts. -/
def answer : Call → Except DeclarationError Unit
  | assemble kind tokens =>
    if tokens.length = kind.arity then .ok ()
    else .error (.malformedConstraint kind kind.arity tokens.length)
  | push _ => .ok ()

/-- The constraint that a call which is not refused adds. -/
def Adds : Call → Constraint → Prop
  | assemble kind tokens, constraint => constraint.kind = kind ∧ constraint.tokens = tokens
  | push given, constraint => constraint = given

theorem answer_perform (call : Call) (constraints : Constraints) :
    (call.perform.effect constraints).1 = call.answer := by
  cases call with
  | push constraint => rfl
  | assemble kind tokens =>
    rw [perform, effect_assembleInPlace, Constraints.assemble, answer]
    cases htokens : Constraint.ofTokens kind tokens with
    | error e =>
      obtain ⟨hlength, rfl⟩ := Constraint.ofTokens_eq_error_iff.1 htokens
      rw [if_neg hlength]
      rfl
    | ok constraint =>
      obtain ⟨rfl, rfl⟩ := Constraint.ofTokens_eq_ok_iff.1 htokens
      rw [if_pos constraint.length_tokens]
      rfl

/-- A call that is refused changes nothing. -/
theorem effect_of_refused {call : Call} (h : call.answer.isOk = false) (constraints : Constraints) :
    (call.perform.effect constraints).2 = constraints := by
  rw [← answer_perform call constraints] at h
  cases call with
  | push constraint => cases h
  | assemble kind tokens =>
    rw [perform, effect_assembleInPlace] at h ⊢
    cases hassemble : constraints.assemble kind tokens with
    | error e => rfl
    | ok next => rw [hassemble] at h; cases h

/-- A call that is not refused adds its constraint at the end. -/
theorem effect_of_accepted {call : Call} (h : call.answer.isOk = true) (constraints : Constraints) :
    ∃ constraint, call.Adds constraint ∧
      (call.perform.effect constraints).2.toList = constraints.toList ++ [constraint] := by
  rw [← answer_perform call constraints] at h
  cases call with
  | push constraint => exact ⟨constraint, rfl, rfl⟩
  | assemble kind tokens =>
    rw [perform, effect_assembleInPlace, Constraints.assemble] at h ⊢
    cases htokens : Constraint.ofTokens kind tokens with
    | error e => rw [htokens] at h; cases h
    | ok constraint => exact ⟨constraint, Constraint.ofTokens_eq_ok_iff.1 htokens, rfl⟩

end Call

/-- The constraints of the calls that are not refused are listed in the order of the calls. -/
theorem adds_each (calls : List Call) :
    List.Forall₂ Call.Adds (calls.filter (·.answer.isOk)) (each Call.perform calls ∅).2.toList := by
  refine each_holds (fun earlier (constraints : Constraints) =>
    List.Forall₂ Call.Adds (earlier.filter (·.answer.isOk)) constraints.toList) ?_ [] .nil calls
  intro earlier call constraints h
  rw [List.filter_append]
  cases hanswer : call.answer.isOk with
  | false =>
    rw [Call.effect_of_refused hanswer, List.filter_cons_of_neg (by simp [hanswer]),
      List.filter_nil, List.append_nil]
    exact h
  | true =>
    obtain ⟨constraint, hadds, hnext⟩ := Call.effect_of_accepted hanswer constraints
    rw [hnext, List.filter_cons_of_pos (by simp [hanswer]), List.filter_nil]
    exact List.rel_append h (.cons hadds .nil)

end Constraints

/-! ## The main statement -/

/-- Calls on the containers of a class, one after another from empty ones, with the refused ones
ignored. A declaration is refused when an earlier one has its name, with an error that names its own
class and what it declares, and the names are listed in the order of their first declarations, each
constant with the value of its first one. A constraint is refused when the number of its tokens is
not that of its kind, and those of the other calls are listed in the order of the calls. Every call
comes to what the operation of its name gives, or it is refused and leaves its container as it
was. -/
theorem calls_fill_containers :
    (∀ calls : List Variables.Call,
      let (answers, vars) := each Variables.Call.perform calls ∅
      (answers = calls.mapIdx fun k call =>
        if call.name ∈ (calls.take k).map (·.name) then
          .error (.duplicateSymbol call.owner call.name .variableName)
        else .ok ()) ∧
      vars.toList = (calls.map (·.name)).eraseDups) ∧
    (∀ calls : List Constants.Call,
      let (answers, consts) := each Constants.Call.perform calls ∅
      (answers = calls.mapIdx fun k call =>
        if call.name ∈ (calls.take k).map (·.name) then
          .error (.duplicateSymbol call.owner call.name .constantName)
        else .ok ()) ∧
      consts.names = (calls.map (·.name)).eraseDups ∧
      ∀ name, consts.get? name = (calls.find? (·.name = name)).map (·.value)) ∧
    (∀ calls : List Constraints.Call,
      let (answers, constraints) := each Constraints.Call.perform calls ∅
      answers = calls.map Constraints.Call.answer ∧
      List.Forall₂ Constraints.Call.Adds (calls.filter (·.answer.isOk)) constraints.toList) ∧
    (∀ (vars : Variables) owner name,
      (Variables.declareInPlace owner name).effect vars = outcome vars (vars.declare owner name)) ∧
    (∀ (consts : Constants) owner name value,
      (Constants.declareInPlace owner name value).effect consts =
        outcome consts (consts.declare owner name value)) ∧
    (∀ (constraints : Constraints) kind tokens,
      (Constraints.assembleInPlace kind tokens).effect constraints =
        outcome constraints (constraints.assemble kind tokens)) ∧
    ∀ (constraints : Constraints) constraint,
      (Constraints.pushInPlace constraint).effect constraints =
        (.ok (), constraints.push constraint) :=
  ⟨fun calls => ⟨Variables.declares.answers_each rfl calls,
      Variables.declares.names_each rfl calls⟩,
    fun calls => ⟨Constants.declares.answers_each rfl calls,
      Constants.declares.names_each rfl calls, Constants.get?_each calls⟩,
    fun calls => ⟨each_answers_eq_map Constraints.Call.answer_perform calls ∅,
      Constraints.adds_each calls⟩,
    Variables.effect_declareInPlace, Constants.effect_declareInPlace,
    Constraints.effect_assembleInPlace, Constraints.effect_pushInPlace⟩

end FuzzyHierarchy
