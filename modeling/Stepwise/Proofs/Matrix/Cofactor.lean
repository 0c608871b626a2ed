import Stepwise.Matrix.Request
import Stepwise.Proofs.Matrix.Entries

/-! The checks in the expansion of a determinant. A determinant asks for cofactors and a cofactor
for the determinant of a minor, and each of them checks the shape it is given. Main statement: below
a square matrix no check fails, whatever its size, so that a determinant is the expansion without
the checks and an inverse is refused for a determinant of zero only. -/
namespace Stepwise.Matrix

section Outcomes

variable {α β ε : Type}

theorem foldlM_ok {step : β → α → Except ε β} {next : β → α → β} {items : List α}
    (each : ∀ item ∈ items, ∀ state, step state item = .ok (next state item)) (start : β) :
    items.foldlM step start = .ok (items.foldl next start) := by
  induction items generalizing start with
  | nil => rfl
  | cons item rest ih =>
    rw [List.foldlM_cons, each item (List.mem_cons_self ..)]
    exact ih (fun later member => each later (List.mem_cons_of_mem _ member)) _

theorem mapM_ok {step : α → Except ε β} {value : α → β} {items : List α}
    (each : ∀ item ∈ items, step item = .ok (value item)) :
    items.mapM step = .ok (items.map value) := by
  induction items with
  | nil => rfl
  | cons item rest ih =>
    rw [List.mapM_cons, each item (List.mem_cons_self ..), ih fun later member =>
      each later (List.mem_cons_of_mem _ member)]
    rfl

end Outcomes

/-- The determinant of the first `n` rows and columns, without a check on the way. -/
def expansion : ℕ → Matrix → Float
  | 0, _ => 1.0
  | 1, m => m.get 0 0
  | 2, m => m.get 0 0 * m.get 1 1 - m.get 0 1 * m.get 1 0
  | n + 3, m =>
    (List.range (n + 3)).foldl
      (fun sum col => sum + m.get 0 col * (sign 1 (col + 1) * expansion (n + 2) (m.minor 0 col))) 0.0

def signedMinor (m : Matrix) (row col : ℕ) : Float :=
  sign (row + 1) (col + 1) * expansion (m.rows - 1) (m.minor row col)

def inverted (m : Matrix) (d : Float) : Matrix :=
  match m.rows with
  | 1 => scalar (1.0 / d)
  | 2 => (ofFn 2 2 fun i j => if i = j then m.get (1 - i) (1 - j) else -m.get i j).scale (1.0 / d)
  | n => (ofFn n n fun i j => m.signedMinor j i).scale (1.0 / d)

variable {m : Matrix} {i j n : ℕ} {d : Float}

@[simp] theorem rows_minor (row col : ℕ) : (m.minor row col).rows = m.rows - 1 := rfl
@[simp] theorem cols_minor (row col : ℕ) : (m.minor row col).cols = m.cols - 1 := rfl

theorem IsSquare.minor (square : m.IsSquare) (row col : ℕ) : (m.minor row col).IsSquare :=
  congrArg (· - 1) square

theorem requireSquare_ok (square : m.IsSquare) (action : MatrixAction) :
    m.requireSquare action = .ok () :=
  if_pos square

/-- Entries of a large square matrix have cofactors as far as their minors have determinants. -/
theorem cofactorBy_ok {expand : Matrix → Except ComputationError Float}
    (square : m.IsSquare) (large : 3 ≤ m.rows) (row : i < m.rows) (col : j < m.rows)
    (found : expand (m.minor i j) = .ok d) :
    m.cofactorBy expand (i + 1) (j + 1) = .ok (sign (i + 1) (j + 1) * d) := by
  have enough : ¬ m.rows < 3 := by omega
  have inside : ¬ (i + 1 < 1 ∨ m.rows < i + 1 ∨ j + 1 < 1 ∨ m.rows < j + 1) := by omega
  rw [cofactorBy, requireSquare_ok square]
  simp only [bind, Except.bind, if_neg enough, if_neg inside, Nat.add_sub_cancel,
    requireSquare_ok (square.minor i j), found]
  rfl

theorem expand_ok (rows : m.rows = n) (square : m.IsSquare) : expand n m = .ok (expansion n m) := by
  fun_induction expansion n m with
  | case1 | case2 | case3 => rfl
  | case4 n m ih =>
    refine foldlM_ok (fun col member sum => ?_) _
    have inside : col < m.rows := rows ▸ List.mem_range.mp member
    have found := ih col (by rw [rows_minor, rows]; rfl) (square.minor 0 col)
    rw [cofactorBy_ok square (by omega) (by omega) inside found]
    rfl

theorem determinant_ok (square : m.IsSquare) : m.determinant = .ok (expansion m.rows m) := by
  rw [determinant, requireSquare_ok square]
  exact expand_ok rfl square

theorem cofactor_ok (square : m.IsSquare) (large : 3 ≤ m.rows) (row : i < m.rows) (col : j < m.rows) :
    m.cofactor (i + 1) (j + 1) = .ok (m.signedMinor i j) :=
  cofactorBy_ok square large row col (expand_ok rfl (square.minor i j))

theorem ofFn_congr {r c : ℕ} {f g : ℕ → ℕ → Float} (same : ∀ i < r, ∀ j < c, f i j = g i j) :
    ofFn r c f = ofFn r c g := by
  have entries : (fun i : Fin (r * c) => f (i / c) (i % c)) = fun i : Fin (r * c) => g (i / c) (i % c) := by
    funext i
    have width : 0 < c := Nat.pos_of_mul_pos_left (Nat.zero_lt_of_lt i.isLt)
    exact same _ (Nat.div_lt_of_lt_mul (Nat.mul_comm r c ▸ i.isLt)) _ (Nat.mod_lt _ width)
  simp only [ofFn, entries]

/-- Only matrices with one or two rows lack cofactors. -/
theorem adjugate_ok (square : m.IsSquare) (one : m.rows ≠ 1) (two : m.rows ≠ 2) :
    m.adjugate = .ok (ofFn m.rows m.rows fun i j => m.signedMinor j i) := by
  have row (i : ℕ) (member : i ∈ List.range m.rows) :
      (List.range m.rows).mapM (fun col => m.cofactor (i + 1) (col + 1)) =
        .ok ((List.range m.rows).map (m.signedMinor i)) := by
    have inside := List.mem_range.mp member
    exact mapM_ok fun j member => cofactor_ok square (by omega) inside (List.mem_range.mp member)
  rw [adjugate, mapM_ok row]
  refine congrArg Except.ok (ofFn_congr fun i row j col => ?_)
  simp [row, col]

/-- A square matrix is inverted unless its determinant is zero. -/
theorem inverse_square (square : m.IsSquare) : m.inverse =
    if expansion m.rows m == 0.0 then .error .singularMatrix else .ok (m.inverted (expansion m.rows m)) := by
  rw [inverse, requireSquare_ok square, determinant_ok square]
  simp only [bind, Except.bind]
  split
  · rfl
  split
  · next one =>
    simp only [inverted, one]
    rfl
  · next two =>
    simp only [inverted, two]
    rfl
  · next one two =>
    have general : m.inverted (expansion m.rows m) =
        (ofFn m.rows m.rows fun i j => m.signedMinor j i).scale (1.0 / expansion m.rows m) := by
      unfold inverted
      split <;> first | contradiction | rfl
    rw [adjugate_ok square one two, general]
    rfl

end Stepwise.Matrix
