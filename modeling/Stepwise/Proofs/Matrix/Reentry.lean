import Stepwise.Proofs.Matrix.Reading
import Stepwise.Proofs.Matrix.Request

/-! Answers that are entered again. An answer has entries, since the matrices of a request that was
read have; it is written as a matrix without anything in front of it, and is read as one. Main
statement: an answer to a matrix request is its own answer, and a matrix whose entries are read back
is read back. -/
namespace Stepwise.Matrix

open Decimal (read? sixPlaces reread)

def IsFilled (m : Matrix) : Prop := 0 < m.rows ∧ 0 < m.cols

section Filled

variable {request : Request} {text : String}

def Request.IsFilled (request : Request) : Prop :=
  request.first.matrix.IsFilled ∧ ∀ both ∈ request.second, both.2.matrix.IsFilled

theorem Operand.isFilled_of_read {operand : Operand} (read : Operand.ofText text = .ok operand) :
    operand.matrix.IsFilled := by
  obtain ⟨front, rest, split, is_front, literal⟩ := Operand.ofText_eq_ok_iff.mp read
  exact pos_of_ofText literal

theorem Request.isFilled_of_read (read : Request.ofText text = .ok request) : request.IsFilled := by
  unfold Request.ofText at read
  simp only at read
  split at read
  · cases read
  · obtain ⟨first, left, read⟩ := exists_ok_of_bind read
    split at read
    · obtain rfl := Except.ok.inj read
      exact ⟨Operand.isFilled_of_read left, by simp⟩
    · obtain ⟨operation, -, read⟩ := exists_ok_of_bind read
      obtain ⟨second, right, read⟩ := exists_ok_of_bind read
      obtain rfl := Except.ok.inj read
      exact ⟨Operand.isFilled_of_read left, by simpa using Operand.isFilled_of_read right⟩

def HasRoom (shape : ℕ × ℕ) : Prop := 0 < shape.1 ∧ 0 < shape.2

theorem Operand.hasRoom {operand : Operand} (filled : operand.matrix.IsFilled) :
    ∀ shape ∈ operand.shape?, HasRoom shape := by
  intro shape found
  unfold Operand.shape? at found
  split at found
  · cases found
  · obtain rfl := Option.some.inj found
    exact filled

theorem BinaryOperation.hasRoom (operation : BinaryOperation) {first second : Option (ℕ × ℕ)}
    (left : ∀ shape ∈ first, HasRoom shape) (right : ∀ shape ∈ second, HasRoom shape) :
    HasRoom (operation.shape first second) := by
  cases first with
  | none =>
    cases second with
    | none => exact ⟨Nat.one_pos, Nat.one_pos⟩
    | some second => exact right second rfl
  | some first =>
    cases second with
    | none => exact left first rfl
    | some second =>
      obtain ⟨rows, cols⟩ := left first rfl
      obtain ⟨-, cols'⟩ := right second rfl
      change HasRoom (if operation = .multiply then (first.1, second.2) else (first.1, first.2))
      split
      · exact ⟨rows, cols'⟩
      · exact ⟨rows, cols⟩

/-- An answer has at least one entry. -/
theorem Request.isFilled_answer {m : Matrix} (filled : request.IsFilled)
    (answered : request.answer = .ok m) : m.IsFilled := by
  have shape : (m.rows, m.cols) = request.shape := (fault_refused request).describes_of_ok answered
  change HasRoom (m.rows, m.cols)
  rw [shape]
  obtain ⟨first, second⟩ := request
  obtain ⟨left, right⟩ := filled
  cases second with
  | none =>
    cases alone : first.shape? with
    | none => simp [Request.shape, alone, HasRoom]
    | some shape => simpa [Request.shape, alone] using Operand.hasRoom left shape alone
  | some both => exact both.1.hasRoom (Operand.hasRoom left) (Operand.hasRoom (right both rfl))

/-- An answer is what is written for a matrix with entries. -/
theorem isFilled_of_outcome {input answer : String}
    (done : (Entry.compute .matrix input).outcome = .ok answer) :
    ∃ m : Matrix, m.IsFilled ∧ m.text = answer := by
  rw [Request.outcome_eq] at done
  cases read : Request.ofText input with
  | error e =>
    rw [read] at done
    cases done
  | ok request =>
    rw [read] at done
    change ((request.answer).map Matrix.text).mapError Failure.computation = .ok answer at done
    cases answered : request.answer with
    | error e =>
      rw [answered] at done
      cases done
    | ok m =>
      rw [answered] at done
      exact ⟨m, Request.isFilled_answer (Request.isFilled_of_read read) answered, Except.ok.inj done⟩

end Filled

section Again

variable {m r : Matrix}

theorem text_congr (rows : r.rows = m.rows) (cols : r.cols = m.cols)
    (entries : ∀ i < m.rows, ∀ j < m.cols, sixPlaces (r.get i j) = sixPlaces (m.get i j)) :
    r.text = m.text := by
  have same (i : ℕ) (inside : i < m.rows) : rowText (r.row i) = rowText (m.row i) := by
    rw [rowText, rowText, row, row, cols, List.map_map, List.map_map]
    exact congrArg (String.intercalate ",")
      (List.map_congr_left fun j member => entries i inside j (List.mem_range.mp member))
  have lines : r.toRows.map rowText = m.toRows.map rowText := by
    rw [toRows, toRows, rows, List.map_map, List.map_map]
    exact List.map_congr_left fun i member => same i (List.mem_range.mp member)
  rw [text_eq, text_eq, lines]

theorem answer_single (m : Matrix) : Request.answer ⟨⟨m, none, 1.0⟩, none⟩ = .ok m := by
  have one : ((1.0 : Float) != 1.0) = false := rfl
  simp only [Request.answer, Operand.value, one]
  rfl

/-- What is written for a matrix is its own answer. -/
theorem outcome_text (filled : m.IsFilled) : (Entry.compute .matrix m.text).outcome = .ok m.text := by
  obtain ⟨r, read, rows, cols, entries⟩ := ofText_text filled.1 filled.2
  have written : Operand.IsWritten ⟨r, none, 1.0⟩ m.text := by
    simpa using @Operand.IsWritten.bare "" m.text r none rfl read
  have same : r.text = m.text :=
    text_congr rows cols fun i row j col => by rw [entries i row j col, Decimal.sixPlaces_reread]
  rw [Request.outcome_eq, Request.ofText_single written.read]
  change ((Request.answer ⟨⟨r, none, 1.0⟩, none⟩).map text).mapError Failure.computation = .ok m.text
  rw [answer_single]
  exact congrArg Except.ok same

/-- The answer to a matrix request is its own answer, and a matrix whose entries are read back is
read back, as equal as they are. Every entry is written as before once it was read. -/
theorem text_reentered :
    (∀ x, ∃ y, read? (sixPlaces x) = some y ∧ sixPlaces y = sixPlaces x) ∧
      (∀ input answer, (Entry.compute .matrix input).outcome = .ok answer →
      (Entry.compute .matrix answer).outcome = .ok answer) ∧
      (∀ m : Matrix, m.IsFilled →
      (∀ i < m.rows, ∀ j < m.cols, read? (sixPlaces (m.get i j)) = some (m.get i j)) →
        Matrix.ofText m.text = .ok m) ∧
      ∀ m : Matrix, m.IsFilled →
      (∀ i < m.rows, ∀ j < m.cols, ∃ x, read? (sixPlaces (m.get i j)) = some x ∧ x == m.get i j) →
        ∃ r, Matrix.ofText m.text = .ok r ∧ r.rows = m.rows ∧ r.cols = m.cols ∧
          ∀ i < m.rows, ∀ j < m.cols, r.get i j == m.get i j := by
  refine ⟨fun x => ⟨reread x, Decimal.read_written x, Decimal.sixPlaces_reread x⟩,
    fun input answer done => ?_, fun m filled back => ?_, fun m filled back => ?_⟩
  · obtain ⟨m, filled, rfl⟩ := isFilled_of_outcome done
    exact outcome_text filled
  · obtain ⟨r, read, rows, cols, entries⟩ := ofText_text filled.1 filled.2
    have same : r = m := ext_get rows cols fun i row j col => by
      rw [entries i (rows ▸ row) j (cols ▸ col), Decimal.reread_eq (back i (rows ▸ row) j (cols ▸ col))]
    rw [same] at read
    exact read
  · obtain ⟨r, read, rows, cols, entries⟩ := ofText_text filled.1 filled.2
    refine ⟨r, read, rows, cols, fun i row j col => ?_⟩
    obtain ⟨x, found, equal⟩ := back i row j col
    rw [entries i row j col, Decimal.reread_eq found]
    exact equal

theorem text_reentered_inverse :
    (Entry.compute .matrix "I[1,2;3,4]").outcome = .ok "[-2,1;1.5,-0.5]" ∧
      (Entry.compute .matrix "[-2,1;1.5,-0.5]").outcome = .ok "[-2,1;1.5,-0.5]" ∧
      Matrix.ofText (ofFn 1 2 fun _ j => if j = 0 then -2.0 else 1.5).text =
        .ok (ofFn 1 2 fun _ j => if j = 0 then -2.0 else 1.5) ∧
      ∃ r, Matrix.ofText (scalar (-0.0)).text = .ok r ∧ r.rows = 1 ∧ r.cols = 1 ∧
        ∀ i < 1, ∀ j < 1, r.get i j == (scalar (-0.0)).get i j := by
  have done : (Entry.compute .matrix "I[1,2;3,4]").outcome = .ok "[-2,1;1.5,-0.5]" := by
    have text : (Entry.compute .matrix "I[1,2;3,4]").outcome.toOption = some "[-2,1;1.5,-0.5]" := by
      decide +kernel
    cases outcome : (Entry.compute .matrix "I[1,2;3,4]").outcome with
    | error failure => simp [outcome, Except.toOption] at text
    | ok answer => simpa [outcome, Except.toOption] using text
  obtain ⟨-, answer, exactly, equally⟩ := text_reentered
  refine ⟨done, answer _ _ done, exactly _ ⟨by decide, by decide⟩ (by decide +kernel),
    equally (scalar (-0.0)) ⟨by decide, by decide⟩ ?_⟩
  have back : ∀ i < 1, ∀ j < 1, read? (sixPlaces ((scalar (-0.0)).get i j)) = some 0.0 ∧
      0.0 == (scalar (-0.0)).get i j := by
    decide +kernel
  exact fun i row j col => ⟨0.0, back i row j col⟩

end Again

end Stepwise.Matrix
