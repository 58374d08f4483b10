import FuzzyHierarchy.Listing.Writing
import FuzzyHierarchy.Proofs.Listing.Injective

/-
Writing the listing of a classifier where room is limited. The statements of the writing come to its
pieces, and what a writer of limited room makes of pieces depends on their text alone, so it makes
no difference which of the statements is the one that fails.

Main statement: what is written is the start of the text that has room, and writing fails exactly
when that is not all of it.
-/

namespace FuzzyHierarchy

namespace Listing

variable {σ ε α : Type} {put : String → Writing σ ε Unit} {classifier : Classifier} {id : ClassId}
  {cls : FuzzyClass} {pieces : List String}

/-! ## Statements and pieces -/

/-- Writing goes on with a value that is there. -/
theorem liftM_bind {β : Type} {x : Except Fault α} {a : α} (h : x = .ok a)
    (next : α → Writing σ ε β) : (liftM x : Writing σ ε α) >>= next = next a := by
  rw [h]
  rfl

/-- Statements that each write some pieces write all of them in order. -/
theorem forM_eq_of_forall₂ {write : α → Writing σ ε Unit} {xs : List α} {parts : List (List String)}
    (h : List.Forall₂ (fun x part => write x = part.forM put) xs parts) :
    xs.forM write = parts.flatten.forM put := by
  induction h with
  | nil => rfl
  | cons hwrite _ ih =>
    simp only [List.forM_eq_forM, List.flatten_cons, List.forM_append, List.forM_cons]
      at hwrite ih ⊢
    rw [hwrite, ih]

theorem forM_flatMap (parts : α → List String) (xs : List α) :
    (xs.flatMap parts).forM put = xs.forM fun x => (parts x).forM put := by
  rw [List.flatMap_def]
  refine (forM_eq_of_forall₂ ?_).symm
  rw [List.forall₂_map_right_iff, List.forall₂_same]
  exact fun _ _ => rfl

theorem writeHeading_eq {superclass? : Option FuzzyClass}
    (h : classifier.superclassOf? id = .ok superclass?) :
    writeHeading put classifier id cls = (heading cls superclass?).forM put := by
  unfold writeHeading heading
  rw [liftM_bind h]
  cases superclass? <;> cases cls.hidden <;> simp

theorem writeSymbols_eq (cls : FuzzyClass) : writeSymbols put cls = (symbols cls).forM put := by
  simp only [writeSymbols, symbols, List.forM_eq_forM, List.forM_append]
  simp only [← List.forM_eq_forM, forM_flatMap]
  simp

theorem writeClass_eq (hfetch : classifier.fetch id = .ok cls)
    (h : classLines classifier id cls = .ok pieces) :
    writeClass put classifier id = pieces.forM put := by
  obtain ⟨superclass?, hsuper, h⟩ := exists_of_bind_eq_ok h
  cases h
  simp only [writeClass, liftM_bind hfetch, writeHeading_eq hsuper, writeSymbols_eq,
    List.forM_eq_forM, List.forM_append]

theorem writeDependencies_eq (classifier : Classifier) :
    writeDependencies put classifier = (dependencies classifier).forM put := by
  simp only [writeDependencies, dependencies, List.forM_eq_forM, List.forM_append]
  simp only [← List.forM_eq_forM, forM_flatMap]
  simp

theorem writeOrder_eq {words : List String}
    (h : classifier.schedule.order.mapM (orderWord classifier) = .ok words) :
    writeOrder put classifier = (orderLine words).forM put := by
  unfold writeOrder orderLine
  rw [liftM_bind h]
  dsimp only
  split <;> simp

/-- A listing is written in the pieces that it consists of, whatever the writer is. -/
theorem write_eq (h : classifier.listing = .ok pieces) (put : String → Writing σ ε Unit) :
    classifier.write put = pieces.forM put := by
  obtain ⟨entries, hentries, h⟩ := exists_of_bind_eq_ok h
  obtain ⟨classes, hclasses, h⟩ := exists_of_bind_eq_ok h
  obtain ⟨words, hwords, h⟩ := exists_of_bind_eq_ok h
  cases h
  -- the listing fetches all classes before the first line, and here each has its turn
  have hwritten : classifier.ids.forM (writeClass put classifier) = classes.flatten.forM put := by
    refine forM_eq_of_forall₂ ((forall₂_comp (mapM_eq_ok_iff.1 hentries)
      (mapM_eq_ok_iff.1 hclasses)).imp ?_)
    rintro id part ⟨⟨_, cls⟩, hentry, hpart⟩
    obtain ⟨found, hfetch, heq⟩ := exists_of_map_eq_ok hentry
    cases heq
    exact writeClass_eq hfetch hpart
  calc classifier.write put
      = (do
          classes.flatten.forM put
          (dependencies classifier).forM put
          (orderLine words).forM put) := by
        rw [← hwritten, ← writeDependencies_eq, ← writeOrder_eq hwords]
        rfl
    _ = (classes.flatten ++ dependencies classifier ++ orderLine words).forM put := by
        simp only [List.forM_eq_forM, List.forM_append, bind_assoc]

/-- Where there is always room, all pieces are there in the end. -/
theorem run_forM_append (pieces : List String) (written : String) :
    (pieces.forM append).run.run written = .ok (.ok (), written ++ String.join pieces) := by
  induction pieces generalizing written with
  | nil => exact congrArg (fun text => Except.ok (Except.ok (), text)) String.append_empty.symm
  | cons piece pieces ih =>
    change (pieces.forM append).run.run (written ++ piece) = _
    rw [ih, String.join_cons, String.append_assoc]

/-- Writing goes on after a piece that was taken, and a fault in it is one of the writer. -/
theorem exists_run_forM (hput : ∀ piece s, ∃ answer, (put piece).run.run s = .ok answer)
    (pieces : List String) (s : σ) : ∃ answer, (pieces.forM put).run.run s = .ok answer := by
  induction pieces generalizing s with
  | nil => exact ⟨_, rfl⟩
  | cons piece pieces ih =>
    change ∃ answer, (put piece >>= fun _ => pieces.forM put).run.run s = .ok answer
    obtain ⟨⟨answer, next⟩, hanswer⟩ := hput piece s
    rw [ExceptT.run_bind, StateT.run_bind, bind_of_eq_ok hanswer]
    cases answer with
    | error failure => exact ⟨_, rfl⟩
    | ok _ => exact ih next

end Listing

/-! ## Limited room -/

namespace BoundedWriter

variable {writer : BoundedWriter} {piece : String} {pieces : List String}

theorem size_toUTF8 (text : String) : text.toUTF8.data.size = text.utf8ByteSize :=
  ByteArray.size_data.trans String.size_toByteArray

theorem toUTF8_append (a b : String) : (a ++ b).toUTF8.data = a.toUTF8.data ++ b.toUTF8.data :=
  (congrArg ByteArray.data String.toByteArray_append).trans ByteArray.data_append

theorem write_of_le (h : piece.utf8ByteSize ≤ writer.room) :
    writer.write piece =
      ({ writer with written := writer.written ++ piece.toUTF8.data }, none) := by
  rw [← size_toUTF8] at h
  rw [write, Array.take_eq_extract, Array.extract_eq_self_of_le h, if_pos h]

theorem write_of_lt (h : writer.room < piece.utf8ByteSize) :
    writer.write piece =
      ({ writer with written := writer.written ++ piece.toUTF8.data.take writer.room },
        some .writeZero) := by
  rw [← size_toUTF8] at h
  rw [write, if_neg (Nat.not_le_of_lt h)]

/-- What fits of the whole text is written, and there is a failure if that is not all of it. -/
theorem writeAll_eq (writer : BoundedWriter) (pieces : List String) :
    writer.writeAll pieces =
      ({ writer with
          written := writer.written ++ (String.join pieces).toUTF8.data.take writer.room },
        if (String.join pieces).utf8ByteSize ≤ writer.room then none else some .writeZero) := by
  induction pieces generalizing writer with
  | nil => simp [writeAll]
  | cons piece pieces ih =>
    rw [writeAll, String.join_cons, toUTF8_append, String.utf8ByteSize_append,
      Array.take_eq_extract, Array.extract_append, size_toUTF8]
    rcases Nat.lt_or_ge writer.room piece.utf8ByteSize with hroom | hroom
    · rw [write_of_lt hroom, if_neg (by omega)]
      have hrest : writer.room - piece.utf8ByteSize = 0 := by omega
      rw [hrest, Nat.zero_sub, Array.extract_zero, Array.append_empty, Array.take_eq_extract]
    · have hnext : room { writer with written := writer.written ++ piece.toUTF8.data } =
          writer.room - piece.utf8ByteSize := by
        rw [room, Array.size_append, size_toUTF8, room, Nat.sub_sub]
      have hfits : (String.join pieces).utf8ByteSize ≤ writer.room - piece.utf8ByteSize ↔
          piece.utf8ByteSize + (String.join pieces).utf8ByteSize ≤ writer.room := by
        omega
      rw [write_of_le hroom]
      dsimp only
      rw [ih, hnext, Array.extract_eq_self_of_le ((size_toUTF8 piece).trans_le hroom), Nat.zero_sub,
        Array.append_assoc, Array.take_eq_extract]
      simp only [hfits]

/-- The first write that fails is the last one. -/
theorem exists_of_writeAll_ne_none (h : (writer.writeAll pieces).2 ≠ none) :
    ∃ before piece after middle, pieces = before ++ piece :: after ∧
      writer.writeAll before = (middle, none) ∧ middle.write piece = writer.writeAll pieces := by
  induction pieces generalizing writer with
  | nil => exact absurd rfl h
  | cons piece pieces ih =>
    rw [writeAll] at h ⊢
    rcases hwrite : writer.write piece with ⟨next, _ | failure⟩
    · rw [hwrite] at h
      obtain ⟨before, failing, after, middle, rfl, hbefore, hmiddle⟩ := ih h
      exact ⟨piece :: before, failing, after, middle, rfl, by rw [writeAll, hwrite]; exact hbefore,
        hmiddle⟩
    · exact ⟨[], piece, pieces, writer, rfl, rfl, hwrite⟩

theorem run_put_bind (piece : String) (rest : Writing BoundedWriter WriteFailure Unit)
    (writer : BoundedWriter) :
    (put piece >>= fun _ => rest).run.run writer =
      match writer.write piece with
      | (next, none) => rest.run.run next
      | (next, some failure) => .ok (.error failure, next) := by
  change ((match writer.write piece with
    | (next, none) => set next
    | (next, some failure) => do
      set next
      throw failure : Writing BoundedWriter WriteFailure Unit) >>= fun _ => rest).run.run writer = _
  split <;> rfl

/-- The answer to writing in which there is a failure or none. -/
def answer : Option WriteFailure → Except WriteFailure Unit
  | none => .ok ()
  | some failure => .error failure

theorem run_forM_put (pieces : List String) (writer : BoundedWriter) :
    (pieces.forM put).run.run writer =
      .ok (answer (writer.writeAll pieces).2, (writer.writeAll pieces).1) := by
  induction pieces generalizing writer with
  | nil => rfl
  | cons piece pieces ih =>
    change (put piece >>= fun _ => pieces.forM put).run.run writer = _
    rw [run_put_bind, writeAll]
    rcases writer.write piece with ⟨next, _ | failure⟩
    · exact ih next
    · rfl

end BoundedWriter

/-! ## The main statement -/

namespace Classifier

variable {classifier : Classifier}

open BoundedWriter in
/-- A finalized classifier is written in pieces, to any writer, and where there is always room they
make up its text. Where `limit` bytes have room, the first `limit` bytes of the text are written, or
all of it, and there is a failure exactly when the text is longer. The first write that fails is the
last. It makes no difference how the text is cut into pieces. -/
theorem write_up_to_limit (h : classifier.Finalized) :
    ∃ text pieces, classifier.text = .ok text ∧ String.join pieces = text ∧
      (∀ (σ ε : Type) (put : String → Writing σ ε Unit),
        classifier.write put = pieces.forM put) ∧
      (classifier.write Listing.append).run.run "" = .ok (.ok (), text) ∧
      ∀ limit,
        let writer : BoundedWriter := { limit, written := text.toUTF8.data.take limit }
        let failure? := if text.utf8ByteSize ≤ limit then none else some WriteFailure.writeZero
        (classifier.write put).run.run { limit } = .ok (answer failure?, writer) ∧
        classifier.writeListing limit = .ok (writer, failure?) ∧
        writer.written.size = min limit text.utf8ByteSize ∧
        (limit < text.utf8ByteSize → ∃ before piece after middle,
          pieces = before ++ piece :: after ∧ writeAll { limit } before = (middle, none) ∧
          middle.write piece = (writer, failure?)) ∧
        ∀ cut, String.join cut = text → writeAll { limit } cut = (writer, failure?) := by
  obtain ⟨text, -, htext, -⟩ :=
    Listing.exists_text h.wellFormed fun id => (h.scheduled.mem_order id).1
  obtain ⟨pieces, hlisting, hpieces⟩ := exists_of_map_eq_ok htext
  have hwrite : ∀ {σ ε : Type} (put : String → Writing σ ε Unit),
      classifier.write put = pieces.forM put := Listing.write_eq hlisting
  refine ⟨text, pieces, htext, hpieces, fun σ ε => hwrite, ?_, fun limit => ?_⟩
  · rw [hwrite, Listing.run_forM_append, hpieces, String.empty_append]
  · intro writer failure?
    have hall : ∀ cut, String.join cut = text →
        writeAll { limit } cut = (writer, failure?) := by
      rintro cut rfl
      rw [writeAll_eq, Array.empty_append]
      rfl
    have hfails : limit < text.utf8ByteSize → (writeAll { limit } pieces).2 ≠ none := by
      intro hlonger
      rw [hall pieces hpieces]
      simp [failure?, hlonger]
    refine ⟨?_, ?_, ?_, fun hlonger => ?_, hall⟩
    · rw [hwrite, run_forM_put, hall pieces hpieces]
    · rw [writeListing, hlisting, Except.map_ok, hall pieces hpieces]
    · change (text.toUTF8.data.take limit).size = _
      rw [Array.take_eq_extract, Array.size_extract, size_toUTF8, Nat.sub_zero]
    · rw [← hall pieces hpieces]
      exact exists_of_writeAll_ne_none (hfails hlonger)

/-- A class with a name and a variable that take more bytes than characters. -/
def measure : Blueprint :=
  let size : Registration := { name := "Größe", vars := ⟨["maß"], List.nodup_singleton _⟩ }
  ({} : Blueprint).tryRegister size

/-- Where nine bytes have room, the last of them is the first byte of a character. -/
theorem write_up_to_limit_measure :
    ∃ classifier writer, measure.finalize = .ok (.ok classifier) ∧
      classifier.text = .ok "class Größe\n    var maß\ndependencies\norder Größe\n" ∧
      (classifier.write BoundedWriter.put).run.run { limit := 9 } =
        .ok (.error .writeZero, writer) ∧
      writer.written = "class Gr".toUTF8.data.push 0xC3 ∧
      ∃ complete, (classifier.write BoundedWriter.put).run.run { limit := 54 } =
        .ok (.ok (), complete) := by
  have hreachable : measure.Reachable := .tryRegister _ (.start _)
  obtain ⟨classifier, hfinalize, hknown⟩ := Blueprint.exists_finalize_of_map
    (show measure.finalize.map (·.map (·.text.toOption)) =
      .ok (.ok (some "class Größe\n    var maß\ndependencies\norder Größe\n")) by decide +kernel)
  obtain ⟨text, pieces, htext, -, -, -, hlimited⟩ :=
    write_up_to_limit ⟨measure, hreachable, .inl hfinalize⟩
  rw [htext] at hknown
  obtain rfl := Option.some.inj hknown
  exact ⟨classifier, _, hfinalize, htext, (hlimited 9).1, by decide +kernel, _, (hlimited 54).1⟩

end Classifier

end FuzzyHierarchy
