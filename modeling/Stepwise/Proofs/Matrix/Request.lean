import Stepwise.Proofs.Matrix.Cofactor

/-! What a matrix request is refused for. An operation on a single matrix needs it to be square, an
inverse a determinant other than zero, and an operation between two operands shapes that fit. Main
statement: an answer is refused for the first of these that is missing and for nothing else, and
otherwise it has the shape that the operation prescribes. -/
namespace Stepwise.Matrix

def isSingular (m : Matrix) : Bool := m.determinant.toOption.any (· == 0.0)

def notSquare? (m : Matrix) (action : MatrixAction) : Option ComputationError :=
  if m.IsSquare then none else some (.notSquare action m.rows m.cols)

def UnaryOperation.action : UnaryOperation → MatrixAction
  | inverse => .inverse
  | transpose => .transpose
  | determinant => .determinant

def Value.shape? : Value → Option (ℕ × ℕ)
  | matrix m => some (m.rows, m.cols)
  | number _ => none

namespace Operand

def fault? (operand : Operand) : Option ComputationError :=
  operand.unary.bind fun operation =>
    (operand.matrix.notSquare? operation.action).or
      (if operation = .inverse ∧ operand.matrix.isSingular then some .singularMatrix else none)

/-- The shape of an operand's value. An inverse and a transposed matrix are as large as the square
they come from. -/
def shape? (operand : Operand) : Option (ℕ × ℕ) :=
  if operand.unary = some .determinant then none else some (operand.matrix.rows, operand.matrix.cols)

end Operand

namespace BinaryOperation

def Fits : BinaryOperation → ℕ × ℕ → ℕ × ℕ → Prop
  | add, first, second | subtract, first, second => first = second
  | multiply, first, second => first.2 = second.1

instance (operation : BinaryOperation) (first second : ℕ × ℕ) : Decidable (operation.Fits first second) :=
  match operation with
  | add | subtract | multiply => inferInstanceAs (Decidable (_ = _))

def fault? (operation : BinaryOperation) : Option (ℕ × ℕ) → Option (ℕ × ℕ) → Option ComputationError
  | some first, some second =>
    if operation.Fits first second then none
    else some (.dimensionMismatch operation.action first.1 first.2 second.1 second.2)
  | some _, none | none, some _ =>
    if operation = .multiply then none else some (.mixedOperands operation.action)
  | none, none => none

def shape (operation : BinaryOperation) : Option (ℕ × ℕ) → Option (ℕ × ℕ) → ℕ × ℕ
  | some (r, c), some (_, d) => if operation = .multiply then (r, d) else (r, c)
  | some shape, none | none, some shape => shape
  | none, none => (1, 1)

end BinaryOperation

namespace Request

/-- The first thing that is wrong with a request. -/
def fault? (request : Request) : Option ComputationError :=
  request.first.fault?.or (request.second.bind fun (operation, second) =>
    second.fault?.or (operation.fault? request.first.shape? second.shape?))

def shape (request : Request) : ℕ × ℕ :=
  match request.second with
  | none => request.first.shape?.getD (1, 1)
  | some (operation, second) => operation.shape request.first.shape? second.shape?

end Request

/-- A result is refused for the given fault, or there is none and the result is as described. -/
def RefusedFor {α : Type} (result : Except ComputationError α) (fault : Option ComputationError)
    (describes : α → Prop) : Prop :=
  match fault with
  | some error => result = .error error
  | none => ∃ value, result = .ok value ∧ describes value

namespace RefusedFor

variable {α β : Type} {result : Except ComputationError α} {fault later : Option ComputationError}
  {p : α → Prop} {q : β → Prop}

theorem imp {weak : α → Prop} (refused : RefusedFor result fault p) (weaker : ∀ value, p value → weak value) :
    RefusedFor result fault weak := by
  cases fault with
  | some error => exact refused
  | none =>
    obtain ⟨value, answered, described⟩ := refused
    exact ⟨value, answered, weaker value described⟩

theorem fault_of_error {error : ComputationError} (refused : RefusedFor result fault p)
    (failed : result = .error error) :
    fault = some error := by
  cases fault with
  | some _ => exact congrArg some (Except.error.inj (Eq.trans (Eq.symm refused) failed))
  | none =>
    obtain ⟨value, answered, -⟩ := refused
    cases answered.symm.trans failed

theorem describes_of_ok {value : α} (refused : RefusedFor result fault p)
    (answered : result = .ok value) : p value := by
  cases fault with
  | some error => cases answered.symm.trans refused
  | none =>
    obtain ⟨other, given, described⟩ := refused
    exact Except.ok.inj (answered.symm.trans given) ▸ described

theorem map {f : α → β} (refused : RefusedFor result fault p) (kept : ∀ value, p value → q (f value)) :
    RefusedFor (result.map f) fault q := by
  cases fault with
  | some error =>
    obtain rfl : result = .error error := refused
    rfl
  | none =>
    obtain ⟨value, rfl, described⟩ := refused
    exact ⟨f value, rfl, kept value described⟩

/-- The faults of two computations in a row are those of the first, then those of the second. -/
theorem bind {next : α → Except ComputationError β} (refused : RefusedFor result fault p)
    (step : ∀ value, p value → RefusedFor (next value) later q) :
    RefusedFor (result >>= next) (fault.or later) q := by
  cases fault with
  | some error =>
    obtain rfl : result = .error error := refused
    rfl
  | none =>
    obtain ⟨value, rfl, described⟩ := refused
    exact step value described

end RefusedFor

section Unary

variable {m : Matrix}

theorem requireSquare_refused (m : Matrix) (action : MatrixAction) :
    RefusedFor (m.requireSquare action) (m.notSquare? action) fun _ => m.IsSquare := by
  rw [requireSquare, notSquare?]
  split
  · next square => exact ⟨(), rfl, square⟩
  · rfl

theorem transpose_refused : RefusedFor m.transpose ((m.notSquare? .transpose).or none)
    fun t => t.rows = m.rows ∧ t.cols = m.cols :=
  (requireSquare_refused m .transpose).bind fun _ square => ⟨_, rfl, square.symm, square⟩

theorem determinant_refused : RefusedFor m.determinant ((m.notSquare? .determinant).or none) fun _ => True :=
  (requireSquare_refused m .determinant).bind fun _ square => ⟨_, expand_ok rfl square, trivial⟩

theorem shape_inverted (square : m.IsSquare) (d : Float) :
    (m.inverted d).rows = m.rows ∧ (m.inverted d).cols = m.cols := by
  have cols : m.cols = m.rows := square.symm
  rw [cols]
  unfold inverted
  split
  · next one => exact ⟨one.symm, one.symm⟩
  · next two => exact ⟨two.symm, two.symm⟩
  · exact ⟨rfl, rfl⟩

theorem inverse_refused :
    RefusedFor m.inverse ((m.notSquare? .inverse).or (if m.isSingular then some .singularMatrix else none))
      fun i => i.rows = m.rows ∧ i.cols = m.cols := by
  refine (requireSquare_refused m .inverse).bind fun _ square => ?_
  -- What is left of the inverse is all of it, once the matrix is square.
  suffices refused : RefusedFor m.inverse (if m.isSingular then some .singularMatrix else none) _ by
    rw [inverse, requireSquare_ok square] at refused
    exact refused
  have singular : m.isSingular = (expansion m.rows m == 0.0) := by
    rw [isSingular, determinant_ok square]
    rfl
  rw [inverse_square square, singular]
  split
  · rfl
  · exact ⟨_, rfl, shape_inverted square _⟩

end Unary

theorem value_refused (operand : Operand) :
    RefusedFor operand.value operand.fault? (·.shape? = operand.shape?) := by
  obtain ⟨m, unary, factor⟩ := operand
  have scaled (a : Matrix) (shape : a.rows = m.rows ∧ a.cols = m.cols) :
      (Value.matrix (if factor != 1.0 then a.scale factor else a)).shape? = some (m.rows, m.cols) := by
    rw [← shape.1, ← shape.2]
    split <;> rfl
  cases unary with
  | none => exact ⟨_, rfl, scaled m ⟨rfl, rfl⟩⟩
  | some operation =>
    cases operation with
    | inverse =>
      have fault : Operand.fault? ⟨m, some .inverse, factor⟩ =
          (m.notSquare? .inverse).or (if m.isSingular then some .singularMatrix else none) := by
        simp [Operand.fault?, UnaryOperation.action]
      rw [fault]
      exact inverse_refused.map scaled
    | transpose => exact transpose_refused.map scaled
    | determinant => exact determinant_refused.map fun _ _ => rfl

theorem zipWith_refused (a b : Matrix) (action : MatrixAction) (f : Float → Float → Float) :
    RefusedFor (a.zipWith b action f)
      (if (a.rows, a.cols) = (b.rows, b.cols) then none else some (a.mismatch b action))
      fun m => (m.rows, m.cols) = (a.rows, a.cols) := by
  rw [zipWith]
  by_cases same : (a.rows, a.cols) = (b.rows, b.cols)
  · rw [if_pos same, if_pos (Prod.mk.inj same)]
    exact ⟨_, rfl, rfl⟩
  · rw [if_neg same, if_neg (same ∘ (Prod.mk.injEq ..).mpr)]
    rfl

theorem mul_refused (a b : Matrix) :
    RefusedFor (a.mul b) (if a.cols = b.rows then none else some (a.mismatch b .multiply))
    fun m => (m.rows, m.cols) = (a.rows, b.cols) := by
  rw [mul]
  split
  · exact ⟨_, rfl, rfl⟩
  · rfl

theorem combine_refused (operation : BinaryOperation) (a b : Value) :
    RefusedFor (Request.combine operation a b) (operation.fault? a.shape? b.shape?)
      fun m => (m.rows, m.cols) = operation.shape a.shape? b.shape? := by
  cases a with
  | matrix a =>
    cases b with
    | matrix b =>
      cases operation with
      | add => exact zipWith_refused a b .add (· + ·)
      | subtract => exact zipWith_refused a b .subtract (· - ·)
      | multiply => exact mul_refused a b
    | number x =>
      cases operation with
      | add | subtract => rfl
      | multiply => exact ⟨_, rfl, rfl⟩
  | number x =>
    cases b with
    | matrix b =>
      cases operation with
      | add | subtract => rfl
      | multiply => exact ⟨_, rfl, rfl⟩
    | number y => exact ⟨_, rfl, rfl⟩

/-- An answer is refused for the first thing that is wrong with the request. -/
theorem fault_refused (request : Request) :
    RefusedFor request.answer request.fault? fun m => (m.rows, m.cols) = request.shape := by
  obtain ⟨first, second⟩ := request
  refine (value_refused first).bind fun a shapeFirst => ?_
  cases second with
  | none =>
    rw [Request.shape, ← shapeFirst]
    cases a <;> exact ⟨_, rfl, rfl⟩
  | some both =>
    obtain ⟨operation, second⟩ := both
    refine (value_refused second).bind fun b shapeSecond => ?_
    simp only [Request.shape, ← shapeFirst, ← shapeSecond]
    exact combine_refused operation a b

inductive OfCofactor : ComputationError → Prop where
  | small (action : MatrixAction) (size minimum : ℕ) : OfCofactor (.matrixTooSmall action size minimum)
  | outside (row col size : ℕ) : OfCofactor (.indexOutOfRange row col size)

theorem Operand.not_ofCofactor {operand : Operand} {error : ComputationError}
    (found : operand.fault? = some error) :
    ¬ OfCofactor error := by
  obtain ⟨operation, -, found⟩ := Option.bind_eq_some_iff.mp found
  rcases Option.or_eq_some_iff.mp found with shape | ⟨-, singular⟩
  · grind [OfCofactor, notSquare?]
  · grind [OfCofactor]

theorem BinaryOperation.not_ofCofactor {operation : BinaryOperation} {first second : Option (ℕ × ℕ)}
    {error : ComputationError} (found : operation.fault? first second = some error) :
    ¬ OfCofactor error := by
  rw [BinaryOperation.fault?.eq_def] at found
  grind [OfCofactor]

theorem Request.not_ofCofactor {request : Request} {error : ComputationError}
    (found : request.fault? = some error) :
    ¬ OfCofactor error := by
  rcases Option.or_eq_some_iff.mp found with first | ⟨-, rest⟩
  · exact Operand.not_ofCofactor first
  · obtain ⟨⟨operation, second⟩, -, rest⟩ := Option.bind_eq_some_iff.mp rest
    rcases Option.or_eq_some_iff.mp rest with second | ⟨-, between⟩
    · exact Operand.not_ofCofactor second
    · exact BinaryOperation.not_ofCofactor between

/-- A request is refused for the first thing that is wrong with it, and else its answer has the
shape prescribed. No cofactor that is asked for on the way is refused. -/
theorem answer_refused (request : Request) :
    RefusedFor request.answer request.fault?
      (fun m => (m.rows, m.cols) = request.shape ∧ m.data.size = m.rows * m.cols) ∧
      (∀ action size minimum, request.answer ≠ .error (.matrixTooSmall action size minimum)) ∧
      ∀ row col size, request.answer ≠ .error (.indexOutOfRange row col size) := by
  have refused := fault_refused request
  have own (error : ComputationError) (failed : request.answer = .error error) : ¬ OfCofactor error :=
    Request.not_ofCofactor (refused.fault_of_error failed)
  refine ⟨refused.imp fun m shape => ⟨shape, m.size_data⟩, ?_, ?_⟩
  · exact fun action size minimum failed => own _ failed (.small action size minimum)
  · exact fun row col size failed => own _ failed (.outside row col size)

end Stepwise.Matrix
