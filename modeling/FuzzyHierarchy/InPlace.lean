/-
Calls that change a value in place. A call either goes through with an answer or is refused with an
error, and both leave a value behind: a refused call leaves what it has made of the value up to
then, so it is a fact about each call, and not one of all of them, that a refusal changes nothing.
-/

namespace FuzzyHierarchy

/-- Calls on a value of `σ` that can be refused with an error of `ε`. -/
abbrev InPlace (ε σ : Type) := ExceptT ε (StateM σ)

namespace InPlace

variable {ε σ τ α β : Type} {call : α → InPlace ε σ β}

/-- The answer to a call on `s`, and what the call leaves. -/
def effect (call : InPlace ε σ β) (s : σ) : Except ε β × σ := call.run.run s

/-- Calls one after another, the refused ones ignored: the answers to them, and what they leave. -/
def each (call : α → InPlace ε σ β) (xs : List α) (s : σ) : List (Except ε β) × σ :=
  (xs.mapM fun x => (call x).run).run s

/-- Calls one after another up to the first that is refused: what they leave if none is. -/
def all (call : α → InPlace ε σ β) (xs : List α) (s : σ) : Except ε σ :=
  match effect (xs.forM fun x => discard (call x)) s with
  | (.ok (), next) => .ok next
  | (.error e, _) => .error e

/-- A call on a part of a value, which is read by `get` and put back by `set`. -/
def onPart (get : τ → σ) (set : τ → σ → τ) (call : InPlace ε σ β) : InPlace ε τ β :=
  ExceptT.mk fun t =>
    let (answer, s) := call.effect (get t)
    (answer, set t s)

/-- What becomes of `s` where a change is made as a whole, or is refused and `s` left as it was. -/
def outcome (s : σ) : Except ε σ → Except ε Unit × σ
  | .ok next => (.ok (), next)
  | .error e => (.error e, s)

@[simp] theorem effect_onPart (get : τ → σ) (set : τ → σ → τ) (call : InPlace ε σ β) (t : τ) :
    effect (onPart get set call) t =
      ((effect call (get t)).1, set t (effect call (get t)).2) := rfl

/-- A call goes on with the answer to the one before it and with what that one leaves, unless that
one is refused. -/
theorem effect_bind {γ : Type} (call : InPlace ε σ β) (next : β → InPlace ε σ γ) (s : σ) :
    effect (call >>= next) s =
      match effect call s with
      | (.ok b, s) => effect (next b) s
      | (.error e, s) => (.error e, s) := by
  unfold effect ExceptT.run StateT.run
  simp only [bind, ExceptT.bind, ExceptT.mk, StateT.bind, ExceptT.bindCont]
  cases call s with
  | mk answer s => cases answer <;> rfl

/-! ## Calls one after another -/

@[simp] theorem each_nil (s : σ) : each call [] s = ([], s) := rfl

@[simp] theorem each_cons (x : α) (xs : List α) (s : σ) :
    each call (x :: xs) s =
      ((effect (call x) s).1 :: (each call xs (effect (call x) s).2).1,
        (each call xs (effect (call x) s).2).2) := by
  rw [each, List.mapM_cons]
  rfl

theorem all_cons (x : α) (xs : List α) (s : σ) :
    all call (x :: xs) s =
      match effect (call x) s with
      | (.ok _, next) => all call xs next
      | (.error e, _) => .error e := by
  have hforM : (x :: xs).forM (fun x => discard (call x)) =
      discard (call x) >>= fun _ => xs.forM fun x => discard (call x) := rfl
  have hdiscard : discard (call x) = call x >>= fun _ => pure () := rfl
  rw [all, hforM, hdiscard, effect_bind, effect_bind]
  cases effect (call x) s with
  | mk answer s => cases answer <;> rfl

/-- None of several calls is refused if the first is not and the others are not after it. -/
theorem all_cons_eq_ok_iff {x : α} {xs : List α} {s last : σ} :
    all call (x :: xs) s = .ok last ↔
      ∃ b next, effect (call x) s = (.ok b, next) ∧ all call xs next = .ok last := by
  rw [all_cons]
  match effect (call x) s with
  | (.ok b, next) =>
    constructor
    · intro h
      exact ⟨b, next, rfl, h⟩
    · rintro ⟨_, _, heq, h⟩
      cases heq
      exact h
  | (.error e, next) => simp

theorem each_append (xs ys : List α) (s : σ) :
    each call (xs ++ ys) s =
      ((each call xs s).1 ++ (each call ys (each call xs s).2).1,
        (each call ys (each call xs s).2).2) := by
  induction xs generalizing s with
  | nil => rfl
  | cons x xs ih => rw [List.cons_append, each_cons, each_cons, ih, List.cons_append]

theorem all_append (xs ys : List α) (s : σ) :
    all call (xs ++ ys) s = all call xs s >>= fun next => all call ys next := by
  induction xs generalizing s with
  | nil => rfl
  | cons x xs ih =>
    rw [List.cons_append, all_cons, all_cons]
    match effect (call x) s with
    | (.ok _, next) => exact ih next
    | (.error e, _) => rfl

/-- Those calls that are not refused when they are made one after another. -/
def accepted (call : α → InPlace ε σ β) (xs : List α) (s : σ) : List α :=
  ((xs.zip (each call xs s).1).filter (·.2.isOk)).map Prod.fst

theorem accepted_cons (x : α) (xs : List α) (s : σ) :
    accepted call (x :: xs) s =
      (if (effect (call x) s).1.isOk then [x] else []) ++
        accepted call xs (effect (call x) s).2 := by
  rw [accepted, each_cons, List.zip_cons_cons, List.filter_cons]
  cases (effect (call x) s).1.isOk <;> rfl

/-- Where no call leaves a trace that is refused, the other calls alone leave the same. -/
theorem all_accepted (hrefused : ∀ x s e next, effect (call x) s = (.error e, next) → next = s)
    (xs : List α) (s : σ) : all call (accepted call xs s) s = .ok (each call xs s).2 := by
  induction xs generalizing s with
  | nil => rfl
  | cons x xs ih =>
    rw [accepted_cons, each_cons]
    match hcall : effect (call x) s with
    | (.ok _, next) =>
      change all call (x :: accepted call xs next) s = _
      rw [all_cons, hcall]
      exact ih next
    | (.error e, next) =>
      obtain rfl := hrefused x s e next hcall
      exact ih _

/-- Calls that are answered alike whatever was before them. -/
theorem each_answers_eq_map {answer : α → Except ε β}
    (hanswer : ∀ x s, (effect (call x) s).1 = answer x) (xs : List α) (s : σ) :
    (each call xs s).1 = xs.map answer := by
  induction xs generalizing s with
  | nil => rfl
  | cons x xs ih => rw [each_cons, hanswer, ih, List.map_cons]

section Runs

variable (Holds : List α → σ → Prop)

/-- What each call keeps, given the calls before it, is kept by all of them. -/
theorem each_holds
    (hstep : ∀ earlier x s, Holds earlier s → Holds (earlier ++ [x]) (effect (call x) s).2)
    (earlier : List α) {s : σ} (h : Holds earlier s) (xs : List α) :
    Holds (earlier ++ xs) (each call xs s).2 := by
  induction xs generalizing earlier s with
  | nil => simpa using h
  | cons x xs ih => simpa using ih (earlier ++ [x]) (hstep earlier x s h)

/-- What each call answers, given the calls before it, tells the answers to all of them. -/
theorem each_answers (answer : List α → α → Except ε β)
    (hstep : ∀ earlier x s, Holds earlier s → Holds (earlier ++ [x]) (effect (call x) s).2)
    (hanswer : ∀ earlier x s, Holds earlier s → (effect (call x) s).1 = answer earlier x)
    (earlier : List α) {s : σ} (h : Holds earlier s) (xs : List α) :
    (each call xs s).1 = xs.mapIdx fun k x => answer (earlier ++ xs.take k) x := by
  induction xs generalizing earlier s with
  | nil => rfl
  | cons x xs ih =>
    rw [each_cons, List.mapIdx_cons, hanswer earlier x s h,
      ih (earlier ++ [x]) (hstep earlier x s h)]
    simp

end Runs

end InPlace

end FuzzyHierarchy
