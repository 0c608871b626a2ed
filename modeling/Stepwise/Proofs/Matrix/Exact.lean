import Stepwise.Proofs.Matrix.Entries
import Stepwise.Proofs.Matrix.Echelon

/-! Row reduction without rounding. While every product, quotient and sum is exact and nothing but
zero is set to zero, the doubles hold fractions that the run takes by invertible steps to reduced
row-echelon form. -/
namespace Stepwise.Matrix

open Decimal (IsRational Unrounded rational? isFinite)

/-- The fraction at an entry; zero where there is none. -/
def value (m : Matrix) (i j : ℕ) : ℚ := (rational? (m.get i j)).getD 0

def values (m : Matrix) (r c : ℕ) : RationalMatrix r c := block r c m.value

def IsFinite (m : Matrix) : Prop := ∀ i < m.rows, ∀ j < m.cols, isFinite (m.get i j)

instance (m : Matrix) : Decidable m.IsFinite := inferInstanceAs (Decidable (∀ i < m.rows, ∀ j < m.cols, _))

section ExactRun

def Kept (x : Float) : Prop := x.abs < rowEpsilon → IsRational x 0

instance (x : Float) : Decidable (Kept x) := inferInstanceAs (Decidable (_ → _))

def ExactAdd (m : Matrix) (target source : ℕ) (factor : Float) : Prop :=
  factor != 0.0 → ∀ j < m.cols,
    let product := factor * m.get source j
    let sum := m.get target j + product
    Unrounded (· * ·) factor (m.get source j) product ∧
      Unrounded (· + ·) (m.get target j) product sum ∧ Kept sum

instance (m : Matrix) (target source : ℕ) (factor : Float) : Decidable (m.ExactAdd target source factor) :=
  inferInstanceAs (Decidable (_ → ∀ j < m.cols, _))

def ExactQuotient (m : Matrix) (row col below : ℕ) : Prop :=
  let factor := -m.get below col / m.get row col
  Unrounded (· / ·) (-m.get below col) (m.get row col) factor ∧ m.ExactAdd below row factor

instance (m : Matrix) (row col below : ℕ) : Decidable (m.ExactQuotient row col below) :=
  inferInstanceAs (Decidable (_ ∧ ExactAdd ..))

def ExactBelow (m : Matrix) (row col : ℕ) : Prop :=
  Along (fun m below => m.addRowUnlessZero below row (-m.get below col / m.get row col))
    (fun m below => m.ExactQuotient row col below) m (List.range' (row + 1) (m.rows - (row + 1)))

instance (m : Matrix) (row col : ℕ) : Decidable (m.ExactBelow row col) := decidableAlong ..

def ExactAbove (m : Matrix) (row col : ℕ) : Prop :=
  Along (fun m above => m.addRowUnlessZero above row (-m.get above col))
    (fun m above => m.ExactAdd above row (-m.get above col)) m (List.range row)

instance (m : Matrix) (row col : ℕ) : Decidable (m.ExactAbove row col) := decidableAlong ..

def ExactPivot (m : Matrix) (row col : ℕ) : Prop :=
  let lead := m.get row col
  lead != 1.0 → Unrounded (· / ·) 1.0 lead (1.0 / lead) ∧ ∀ j < m.cols,
    Unrounded (· * ·) (m.get row j) (1.0 / lead) (m.get row j * (1.0 / lead)) ∧
    Kept (m.get row j * (1.0 / lead))

instance (m : Matrix) (row col : ℕ) : Decidable (m.ExactPivot row col) :=
  inferInstanceAs (Decidable (_ → _ ∧ ∀ j < m.cols, _))

def ExactColumn (e : Elimination) (col : ℕ) : Prop :=
  let row := e.pivots.length
  let best := e.matrix.pivotRow row col
  row < e.matrix.rows → ¬ e.matrix.get best col == 0.0 → (e.matrix.swapRows row best).ExactBelow row col

instance (e : Elimination) (col : ℕ) : Decidable (ExactColumn e col) :=
  inferInstanceAs (Decidable (_ → _ → _))

def scaled (m : Matrix) : Matrix :=
  m.eliminate.pivots.reverse.foldl (fun m pivot => m.normalizePivot pivot.1 pivot.2) m.eliminate.matrix

/-- Every product, quotient and sum of the reduction is exact, and no row operation leaves an entry
that is set to zero without being zero. -/
structure ExactRun (m : Matrix) : Prop where
  columns : Along Elimination.column ExactColumn ⟨m, []⟩ (List.range m.cols)
  pivots : Along (fun m pivot => m.normalizePivot pivot.1 pivot.2)
    (fun m pivot => m.ExactPivot pivot.1 pivot.2)
    m.eliminate.matrix m.eliminate.pivots.reverse
  above : Along (fun m pivot => m.clearAbove pivot.1 pivot.2) (fun m pivot => m.ExactAbove pivot.1 pivot.2)
    m.scaled m.eliminate.pivots

instance (m : Matrix) : Decidable m.ExactRun :=
  have := decidableAlong Elimination.column ExactColumn ⟨m, []⟩ (List.range m.cols)
  have := decidableAlong (fun m pivot => m.normalizePivot pivot.1 pivot.2)
    (fun m pivot => m.ExactPivot pivot.1 pivot.2) m.eliminate.matrix m.eliminate.pivots.reverse
  have := decidableAlong (fun m pivot => m.clearAbove pivot.1 pivot.2)
    (fun m pivot => m.ExactAbove pivot.1 pivot.2) m.scaled m.eliminate.pivots
  decidable_of_iff (_ ∧ _ ∧ _) ⟨fun ⟨columns, pivots, above⟩ => ⟨columns, pivots, above⟩,
    fun ⟨columns, pivots, above⟩ => ⟨columns, pivots, above⟩⟩

end ExactRun

def Holds (m : Matrix) (A : ℕ → ℕ → ℚ) : Prop := ∀ i < m.rows, ∀ j < m.cols, IsRational (m.get i j) (A i j)

theorem IsFinite.holds {m : Matrix} (finite : m.IsFinite) : m.Holds m.value := by
  intro i row j col
  obtain ⟨p, value⟩ := Decimal.isRational_of_isFinite (finite i row j col)
  rw [Matrix.value, value, Option.getD_some]
  exact value

theorem Holds.isFinite {m : Matrix} {A : ℕ → ℕ → ℚ} (holds : m.Holds A) : m.IsFinite := fun i row j col =>
  (holds i row j col).isFinite

theorem Holds.values_eq {m : Matrix} {A : ℕ → ℕ → ℚ} (holds : m.Holds A) :
    m.values m.rows m.cols = block m.rows m.cols A := by
  ext i j
  change (rational? (m.get i j)).getD 0 = A i j
  rw [holds i i.isLt j j.isLt, Option.getD_some]

theorem snap_kept {x : Float} {p : ℚ} (value : IsRational x p) (kept : Kept x) : IsRational (snap x) p := by
  unfold snap
  split
  · next small =>
    rw [value.unique (kept small)]
    exact .zero
  · exact value

section Clear

variable {m : Matrix} {A : ℕ → ℕ → ℚ} {source col : ℕ} {targets : List ℕ}

theorem Holds.addedEntry (holds : m.Holds A) {target : ℕ} (row : target < m.rows)
    (pivot : source < m.rows) {j : ℕ} (column : j < m.cols) {factor : Float} {q : ℚ}
    (ratio : IsRational factor q) (exact : m.ExactAdd target source factor) :
    IsRational (m.addedEntry target source factor j) (A target j + q * A source j) := by
  unfold Matrix.addedEntry
  by_cases nonzero : factor != 0.0
  · obtain ⟨product, sum, kept⟩ := exact nonzero j column
    rw [if_pos nonzero]
    exact snap_kept (sum.value (holds target row j column)
      (product.value ratio (holds source pivot j column))) kept
  · have none : q = 0 := (ratio.beq_iff .zero).mp (by simpa [bne] using nonzero)
    rw [if_neg nonzero, none, zero_mul, add_zero]
    exact holds target row j column

/-- What the loop needs of a target can be asked of the matrix that it starts with. -/
theorem along_clear (factor : Float → Float → Float) (condition : Matrix → ℕ → Prop)
    (distinct : targets.Nodup) (other : source ∉ targets) (inside : ∀ t ∈ targets, t < m.rows)
    (pivot : source < m.rows) (width : col < m.cols)
    (reads : ∀ m' : Matrix, ∀ t ∈ targets, m'.cols = m.cols →
      (∀ j < m.cols, m'.get t j = m.get t j) → (∀ j < m.cols, m'.get source j = m.get source j) →
      condition m' t → condition m t)
    (along : Along (fun m t =>
      m.addRowUnlessZero t source (factor (m.get t col) (m.get source col))) condition m targets) :
    ∀ t ∈ targets, condition m t := by
  let P (done : List ℕ) (state : Matrix) : Prop :=
    state = m.clear source col factor done ∧ ∀ t ∈ done, condition m t
  refine (along.fold (P := P) ⟨rfl, by simp⟩ ?_).2
  rintro done t rest state split ⟨rfl, before⟩ condition
  have unique : (done ++ t :: rest).Nodup := split ▸ distinct
  have member (s : ℕ) (early : s ∈ done) : s ∈ targets := split ▸ List.mem_append_left _ early
  have fresh : t ∉ done :=
    fun early => (List.nodup_append.mp unique).2.2 t early t (List.mem_cons_self ..) rfl
  have here : t ∈ targets := split ▸ List.mem_append_right _ (List.mem_cons_self ..)
  have entry {i j : ℕ} (row : i < m.rows) (column : j < m.cols) (untouched : i ∉ done) :
      (m.clear source col factor done).get i j = m.get i j := by
    rw [get_clear (List.nodup_append.mp unique).1 (fun early => other (member _ early))
      (fun s early => inside s (member s early)) pivot width row column, if_neg untouched]
  refine ⟨by simp [clear], fun s later => ?_⟩
  rcases List.mem_append.mp later with early | last
  · exact before s early
  · obtain rfl := List.mem_singleton.mp last
    exact reads _ s here (cols_clear m) (fun j column => entry (inside s here) column fresh)
      (fun j column => entry pivot column fun early => other (member _ early)) condition

theorem ExactAdd.congr {m m' : Matrix} {target : ℕ} {factor : Float}
    (cols : m'.cols = m.cols) (first : ∀ j < m.cols, m'.get target j = m.get target j)
    (second : ∀ j < m.cols, m'.get source j = m.get source j)
    (exact : m'.ExactAdd target source factor) : m.ExactAdd target source factor := by
  intro nonzero j column
  have := exact nonzero j (cols ▸ column)
  rwa [first j column, second j column] at this

end Clear

section Tables

variable (A : ℕ → ℕ → ℚ)

def exchanged (a b i j : ℕ) : ℚ := A (if i = a then b else if i = b then a else i) j

def cleared (source : ℕ) (targets : List ℕ) (ratio : ℕ → ℚ) (i j : ℕ) : ℚ :=
  if i ∈ targets then A i j + ratio i * A source j else A i j

/-- The row of a pivot moved up, and the column cleared below it. -/
def pivoted (rows row best col : ℕ) : ℕ → ℕ → ℚ :=
  cleared (exchanged A row best) row (List.range' (row + 1) (rows - (row + 1))) fun i =>
    -exchanged A row best i col / exchanged A row best row col

def divided (row col i j : ℕ) : ℚ := if i = row then A i j * (1 / A row col) else A i j

variable {A} {r c : ℕ}

theorem equivalent_exchanged {a b : ℕ} (first : a < r) (second : b < r) :
    RowEquivalent (block r c A) (block r c (exchanged A a b)) := by
  refine .swap ⟨a, first⟩ ⟨b, second⟩ fun i j => ?_
  rw [Equiv.swap_apply_def]
  simp only [block, exchanged, Fin.ext_iff]
  split
  · rfl
  · split <;> rfl

theorem equivalent_cleared {source : ℕ} {targets : List ℕ} (other : source ∉ targets)
    (pivot : source < r) (ratio : ℕ → ℚ) :
    RowEquivalent (block r c A) (block r c (cleared A source targets ratio)) := by
  refine .add ⟨source, pivot⟩ (fun i => if i.val ∈ targets then ratio i else 0) (if_neg other) fun i j => ?_
  simp only [block, cleared]
  split
  · rfl
  · rw [zero_mul, add_zero]

theorem equivalent_pivoted {row best col : ℕ} (first : row < r) (second : best < r) :
    RowEquivalent (block r c A) (block r c (pivoted A r row best col)) :=
  (equivalent_exchanged first second).trans (equivalent_cleared (by simp) first _)

/-- A nonzero entry below the pivots so far becomes the next one. -/
theorem Echelon.pivoted {rows k best : ℕ} {pivots : List (ℕ × ℕ)}
    (echelon : Echelon (A · · = 0) rows k pivots) (low : pivots.length ≤ best) (high : best < rows)
    (lead : A best k ≠ 0) :
    Echelon (Matrix.pivoted A rows pivots.length best k · · = 0) rows (k + 1)
      ((pivots.length, k) :: pivots) := by
  have room := Nat.lt_of_le_of_lt low high
  have source (j : ℕ) : exchanged A pivots.length best pivots.length j = A best j := by
    rw [exchanged, if_pos rfl]
  have top (j : ℕ) : Matrix.pivoted A rows pivots.length best k pivots.length j = A best j := by
    rw [Matrix.pivoted, cleared, if_neg (by simp), source]
  refine echelon.pivot room ?_ ?_ ?_ ?_
  · intro i above j _
    have early : i ∉ List.range' (pivots.length + 1) (rows - (pivots.length + 1)) := fun member => by
      have := List.mem_range'_1.mp member
      omega
    rw [Matrix.pivoted, cleared, if_neg early, exchanged, if_neg (by omega), if_neg (by omega)]
  · intro j before
    rw [top]
    exact echelon.below best low high j before
  · rwa [top]
  · intro i lower high' j upto
    have member : i ∈ List.range' (pivots.length + 1) (rows - (pivots.length + 1)) :=
      List.mem_range'_1.mpr ⟨lower, by omega⟩
    rw [Matrix.pivoted, cleared, if_pos member, source, source]
    rcases Nat.lt_or_eq_of_le upto with before | rfl
    · have here : exchanged A pivots.length best i j = 0 := by
        rw [exchanged, if_neg (by omega)]
        split
        · exact echelon.below _ (Nat.le_refl _) room j before
        · exact echelon.below i (by omega) high' j before
      rw [here, echelon.below best low high j before, mul_zero, add_zero]
    · rw [div_mul_cancel₀ _ lead, add_neg_cancel]

end Tables

/-- A stage of the reduction of `origin`: the doubles hold fractions that are row-equivalent to
those it had. -/
structure Carries (origin m : Matrix) (A : ℕ → ℕ → ℚ) : Prop where
  rows : m.rows = origin.rows
  cols : m.cols = origin.cols
  holds : m.Holds A
  equivalent : RowEquivalent (origin.values origin.rows origin.cols) (block origin.rows origin.cols A)

namespace Carries

variable {origin m : Matrix} {A : ℕ → ℕ → ℚ}

theorem start (finite : origin.IsFinite) : Carries origin origin origin.value :=
  ⟨rfl, rfl, finite.holds, .refl _⟩

theorem swap (carries : Carries origin m A) {a b : ℕ} (first : a < origin.rows) (second : b < origin.rows) :
    Carries origin (m.swapRows a b) (exchanged A a b) where
  rows := carries.rows
  cols := carries.cols
  holds i row j col := by
    have bound := carries.rows
    rw [rows_swapRows] at row
    rw [get_swapRows a b row col]
    refine carries.holds _ ?_ j col
    split
    · omega
    · split
      · omega
      · exact row
  equivalent := carries.equivalent.trans (equivalent_exchanged first second)

/-- Multiples of the row of a pivot are added to others. -/
theorem clear (carries : Carries origin m A)
    {source col : ℕ} {factor : Float → Float → Float} {targets : List ℕ}
    (distinct : targets.Nodup) (other : source ∉ targets) (inside : ∀ t ∈ targets, t < origin.rows)
    (pivot : source < origin.rows) (width : col < origin.cols) {ratio : ℕ → ℚ}
    (ratios : ∀ t ∈ targets, IsRational (factor (m.get t col) (m.get source col)) (ratio t))
    (exact : ∀ t ∈ targets, m.ExactAdd t source (factor (m.get t col) (m.get source col))) :
    Carries origin (m.clear source col factor targets)
      (cleared A source targets ratio) where
  rows := (rows_clear m).trans carries.rows
  cols := (cols_clear m).trans carries.cols
  holds i row j column := by
    rw [rows_clear] at row
    rw [cols_clear] at column
    rw [get_clear distinct other (carries.rows ▸ inside) (carries.rows ▸ pivot)
      (carries.cols ▸ width) row column]
    unfold cleared
    by_cases member : i ∈ targets
    · rw [if_pos member, if_pos member]
      exact carries.holds.addedEntry row (carries.rows ▸ pivot) column (ratios i member) (exact i member)
    · rw [if_neg member, if_neg member]
      exact carries.holds i row j column
  equivalent := carries.equivalent.trans (equivalent_cleared other pivot ratio)

theorem normalize (carries : Carries origin m A) {row col : ℕ} (inside : row < origin.rows)
    (width : col < origin.cols) (lead : A row col ≠ 0) (exact : m.ExactPivot row col) :
    Carries origin (m.normalizePivot row col) (divided A row col) where
  rows := (rows_normalizePivot ..).trans carries.rows
  cols := (cols_normalizePivot ..).trans carries.cols
  holds i inside' j column := by
    rw [rows_normalizePivot] at inside'
    rw [cols_normalizePivot] at column
    have leading := carries.holds row (carries.rows ▸ inside) col (carries.cols ▸ width)
    have entry := carries.holds i inside' j column
    rw [get_normalizePivot row col inside' column, divided]
    by_cases same : i = row
    · subst same
      by_cases other : m.get i col != 1.0
      · obtain ⟨quotient, products⟩ := exact other
        obtain ⟨product, kept⟩ := products j column
        rw [if_pos ⟨rfl, other⟩, if_pos rfl]
        exact snap_kept (product.value entry (quotient.value .one leading)) kept
      · have unit : A i col = 1 := (leading.beq_iff .one).mp (by simpa [bne] using other)
        rw [if_neg (fun both => other both.2), if_pos rfl, unit, div_one, mul_one]
        exact entry
    · rw [if_neg (fun both => same both.1), if_neg same]
      exact entry
  equivalent := by
    refine carries.equivalent.trans (.scale (fun i => if i.val = row then 1 / A row col else 1) ?_ ?_)
    · intro i
      split
      · exact one_div_ne_zero lead
      · exact one_ne_zero
    · intro i j
      simp only [block, divided]
      split
      · exact mul_comm _ _
      · rw [one_mul]

end Carries

section Phases

variable {origin m : Matrix} {e : Elimination} {A : ℕ → ℕ → ℚ} {k : ℕ} {pivots : List (ℕ × ℕ)}

/-- A pivot of the greatest magnitude is zero only where the whole rest of the column is. -/
theorem Carries.column_zero (carries : Carries origin m A)
    {first : ℕ} (present : first < origin.rows) (inside : k < origin.cols)
    (zero : A (m.pivotRow first k) k = 0) : ∀ i, first ≤ i → i < origin.rows → A i k = 0 := by
  obtain ⟨rows, cols, holds, -⟩ := carries
  rw [← rows] at present ⊢
  rw [← cols] at inside
  obtain ⟨-, best, greatest⟩ := pivotRow_spec m k present
  intro i low high
  have none : magnitude (m.get (m.pivotRow first k) k) = 0 :=
    magnitude_eq_zero.mpr (zero ▸ holds _ best k inside)
  have small := greatest i low high
  exact (holds i high k inside).unique (magnitude_eq_zero.mp (by omega))

theorem Carries.clearBelow (carries : Carries origin m A) {row : ℕ} (pivot : row < origin.rows)
    (width : k < origin.cols) (exact : m.ExactBelow row k) : Carries origin (m.clearBelow row k)
      (cleared A row (List.range' (row + 1) (m.rows - (row + 1))) fun i => -A i k / A row k) := by
  have below {i : ℕ} (member : i ∈ List.range' (row + 1) (m.rows - (row + 1))) : row < i ∧ i < m.rows := by
    have := List.mem_range'_1.mp member
    omega
  have other : row ∉ List.range' (row + 1) (m.rows - (row + 1)) :=
    fun member => Nat.lt_irrefl _ (below member).1
  have rows := carries.rows
  have cols := carries.cols
  have steps := along_clear (fun x lead => -x / lead) (fun m below => m.ExactQuotient row k below)
      List.nodup_range' other (fun i member => (below member).2) (rows ▸ pivot) (cols ▸ width)
      (fun m' t member same first second step => by
      unfold ExactQuotient at step
      rw [first k (cols ▸ width), second k (cols ▸ width)] at step
      exact ⟨step.1, step.2.congr same first second⟩) exact
  rw [clearBelow_eq]
  refine carries.clear List.nodup_range' other (fun i member => rows ▸ (below member).2) pivot width
      ?_ fun i member =>
    (steps i member).2
  intro i member
  have entry := carries.holds i (below member).2 k (cols ▸ width)
  exact (steps i member).1.value entry.neg (carries.holds row (rows ▸ pivot) k (cols ▸ width))

theorem Carries.clearAbove (carries : Carries origin m A) {row : ℕ} (pivot : row < origin.rows)
    (width : k < origin.cols) (exact : m.ExactAbove row k) :
    Carries origin (m.clearAbove row k) (cleared A row (List.range row) fun i => -A i k) := by
  have other : row ∉ List.range row := by simp
  have rows := carries.rows
  have cols := carries.cols
  have inside (i : ℕ) (member : i ∈ List.range row) : i < origin.rows :=
    (List.mem_range.mp member).trans pivot
  have steps := along_clear (fun x _ => -x) (fun m above => m.ExactAdd above row (-m.get above k))
    List.nodup_range other (fun i member => rows ▸ inside i member) (rows ▸ pivot) (cols ▸ width)
    (fun m' t member same first second added => by
      rw [first k (cols ▸ width)] at added
      exact added.congr same first second) exact
  rw [clearAbove_eq]
  exact carries.clear List.nodup_range other inside pivot width
    (fun i member => (carries.holds i (rows ▸ inside i member) k (cols ▸ width)).neg) steps

theorem column_exact (carries : Carries origin e.matrix A)
    (echelon : Echelon (A · · = 0) origin.rows k e.pivots) (inside : k < origin.cols)
    (exact : ExactColumn e k) :
    ∃ A, Carries origin (e.column k).matrix A ∧
      Echelon (A · · = 0) origin.rows (k + 1) (e.column k).pivots := by
  have rows := carries.rows
  have cols := carries.cols
  unfold Elimination.column
  dsimp only
  by_cases full : e.matrix.rows ≤ e.pivots.length
  · rw [if_pos full]
    exact ⟨A, carries, echelon.skip fun i low high => by omega⟩
  have room : e.pivots.length < origin.rows := by omega
  obtain ⟨low, high, -⟩ := pivotRow_spec e.matrix k (rows ▸ room)
  have lead := carries.holds _ high k (cols ▸ inside)
  rw [if_neg full]
  by_cases zero : e.matrix.get (e.matrix.pivotRow e.pivots.length k) k == 0.0
  · rw [if_pos zero]
    exact ⟨A, carries, echelon.skip (carries.column_zero room inside ((lead.beq_iff .zero).mp zero))⟩
  rw [if_neg zero]
  have nonzero : A (e.matrix.pivotRow e.pivots.length k) k ≠ 0 :=
    fun none => zero ((lead.beq_iff .zero).mpr none)
  have below := exact (by omega) zero
  generalize e.matrix.pivotRow e.pivots.length k = best at *
  have swapped := carries.swap room (rows ▸ high)
  have cleared := swapped.clearBelow room inside below
  rw [rows_swapRows, rows] at cleared
  exact ⟨_, cleared, Echelon.pivoted echelon low (rows ▸ high) nonzero⟩

theorem eliminate_exact (finite : origin.IsFinite) (exact : origin.ExactRun) :
    ∃ A, Carries origin origin.eliminate.matrix A ∧
      Echelon (A · · = 0) origin.rows origin.cols origin.eliminate.pivots := by
  let P (done : List ℕ) (e : Elimination) : Prop :=
    ∃ A, Carries origin e.matrix A ∧ Echelon (A · · = 0) origin.rows done.length e.pivots
  have reached := exact.columns.fold (P := P) ⟨_, .start finite, .empty⟩ (by
    rintro done k rest e split ⟨A, carries, echelon⟩ condition
    obtain ⟨rfl, inside⟩ := range_split split
    rw [List.length_range] at echelon
    obtain ⟨A, carries, echelon⟩ := column_exact carries echelon inside condition
    exact ⟨A, carries, by simpa using echelon⟩)
  obtain ⟨A, carries, echelon⟩ := reached
  rw [List.length_range] at echelon
  exact ⟨A, carries, echelon⟩

/-- Making a pivot one keeps the zeros in place. -/
theorem Echelon.divided {rows : ℕ} (echelon : Echelon (A · · = 0) rows k pivots) {row col : ℕ}
    (lead : A row col ≠ 0) :
    Echelon (Matrix.divided A row col · · = 0) rows k pivots := by
  have zeros (i j : ℕ) : Matrix.divided A row col i j = 0 ↔ A i j = 0 := by
    unfold Matrix.divided
    split
    · simp [lead]
    · rfl
  exact echelon.congr (fun pivot _ j _ => zeros pivot.1 j) fun i _ _ j _ => (zeros i j).mpr

theorem pivots_exact (carries : Carries origin origin.eliminate.matrix A)
    (echelon : Echelon (A · · = 0) origin.rows origin.cols origin.eliminate.pivots)
    (exact : origin.ExactRun) :
    ∃ A, Carries origin origin.scaled A ∧
      Echelon (A · · = 0) origin.rows origin.cols origin.eliminate.pivots ∧
      ∀ pivot ∈ origin.eliminate.pivots, A pivot.1 pivot.2 = 1 := by
  let P (done : List (ℕ × ℕ)) (m : Matrix) : Prop :=
    ∃ A, Carries origin m A ∧ Echelon (A · · = 0) origin.rows origin.cols origin.eliminate.pivots ∧
      ∀ pivot ∈ done, A pivot.1 pivot.2 = 1
  have descending := echelon.descending
  have reached := exact.pivots.fold (P := P) ⟨A, carries, echelon, by simp⟩ (by
    rintro done ⟨row, col⟩ rest m split ⟨A, carries, echelon, unit⟩ condition
    have members {pivot : ℕ × ℕ} (member : pivot ∈ done ++ (row, col) :: rest) :
        pivot ∈ origin.eliminate.pivots :=
      List.mem_reverse.mp (split ▸ member)
    have here := members (List.mem_append_right _ (List.mem_cons_self ..))
    have lead := echelon.lead _ here
    refine ⟨_, carries.normalize ((descending.row_lt here).trans_le echelon.few)
      (echelon.inside _ here) lead condition, Echelon.divided echelon lead, fun pivot member => ?_⟩
    unfold divided
    rcases List.mem_append.mp member with early | last
    · split
      · next same =>
        rw [same, descending.col_eq (members (List.mem_append_left _ early)) here same,
          mul_one_div_cancel lead]
      · exact unit pivot early
    · obtain rfl := List.mem_singleton.mp last
      rw [if_pos rfl, mul_one_div_cancel lead])
  obtain ⟨A, carries, echelon, unit⟩ := reached
  exact ⟨A, carries, echelon, fun pivot member => unit pivot (List.mem_reverse.mpr member)⟩

/-- Clearing the column of a pivot above it changes no row up to its own pivot, and no column that
was cleared before. -/
theorem above_exact (carries : Carries origin origin.scaled A)
    (echelon : Echelon (A · · = 0) origin.rows origin.cols origin.eliminate.pivots)
    (unit : ∀ pivot ∈ origin.eliminate.pivots, A pivot.1 pivot.2 = 1) (exact : origin.ExactRun) :
    ∃ A, Carries origin (origin.eliminate.pivots.foldl (fun m pivot => m.clearAbove pivot.1 pivot.2)
      origin.scaled) A ∧
      Echelon (A · · = 0) origin.rows origin.cols origin.eliminate.pivots ∧
      (∀ pivot ∈ origin.eliminate.pivots, A pivot.1 pivot.2 = 1) ∧
      ∀ pivot ∈ origin.eliminate.pivots, ∀ i < pivot.1, A i pivot.2 = 0 := by
  let P (done : List (ℕ × ℕ)) (m : Matrix) : Prop :=
    ∃ A, Carries origin m A ∧ Echelon (A · · = 0) origin.rows origin.cols origin.eliminate.pivots ∧
      (∀ pivot ∈ origin.eliminate.pivots, A pivot.1 pivot.2 = 1) ∧
      ∀ pivot ∈ done, ∀ i < pivot.1, A i pivot.2 = 0
  have descending := echelon.descending
  refine exact.above.fold (P := P) ⟨A, carries, echelon, unit, by simp⟩ ?_
  rintro done ⟨row, col⟩ rest m split ⟨A, carries, echelon, unit, clean⟩ condition
  have here : (row, col) ∈ origin.eliminate.pivots := split ▸ List.mem_append_right _ (List.mem_cons_self ..)
  have room := (descending.row_lt here).trans_le echelon.few
  have before {j : ℕ} (left : j < col) (i : ℕ) :
      cleared A row (List.range row) (fun i => -A i col) i j = A i j := by
    unfold cleared
    split
    · rw [echelon.left _ here j left, mul_zero, add_zero]
    · rfl
  have under {i : ℕ} (low : row ≤ i) (j : ℕ) :
      cleared A row (List.range row) (fun i => -A i col) i j = A i j := by
    rw [cleared, if_neg (by simpa using low)]
  have kept (pivot : ℕ × ℕ) (member : pivot ∈ origin.eliminate.pivots) (j : ℕ) (upto : j ≤ pivot.2) :
      cleared A row (List.range row) (fun i => -A i col) pivot.1 j = A pivot.1 j := by
    rcases Nat.lt_or_ge pivot.1 row with above | low
    · exact before (Nat.lt_of_le_of_lt upto (descending.col_lt member here above)) _
    · exact under low j
  refine ⟨_, carries.clearAbove room (echelon.inside _ here) condition, echelon.congr
    (fun pivot member j upto => ?_) ?_, fun pivot member => ?_, fun pivot member i above => ?_⟩
  · rw [kept pivot member j upto]
  · intro i low _ j _ zero
    rwa [under (Nat.le_of_lt ((descending.row_lt here).trans_le low))]
  · rw [kept pivot member _ (Nat.le_refl _)]
    exact unit pivot member
  · rcases List.mem_append.mp member with early | last
    · have lower : row < pivot.1 :=
        (List.pairwise_append.mp (split ▸ descending.pairwise)).2.2 pivot early _ (List.mem_cons_self ..)
      unfold cleared
      split
      · rw [clean pivot early i above, clean pivot early row lower, mul_zero, add_zero]
      · exact clean pivot early i above
    · obtain rfl := List.mem_singleton.mp last
      rw [cleared, if_pos (List.mem_range.mpr above), unit _ here, mul_one, add_neg_cancel]

theorem Carries.unsignedZeros (carries : Carries origin m A) : Carries origin m.unsignedZeros A where
  rows := carries.rows
  cols := carries.cols
  holds i row j col := by
    have row : i < m.rows := row
    have col : j < m.cols := col
    have entry := carries.holds i row j col
    rw [get_unsignedZeros row col]
    split
    · next zero =>
      rw [(entry.beq_iff .zero).mp zero]
      exact .zero
    · exact entry
  equivalent := carries.equivalent

end Phases

/-- A run without rounding ends in reduced row-echelon form, without a change to the solutions. -/
theorem rref_reduced (m : Matrix) (finite : m.IsFinite) (exact : m.ExactRun) :
    m.rref.rows = m.rows ∧ m.rref.cols = m.cols ∧ m.rref.IsFinite ∧
      (m.rref.values m.rows m.cols).IsReducedRowEchelon ∧
      RowEquivalent (m.values m.rows m.cols) (m.rref.values m.rows m.cols) ∧
      ∀ n, m.cols = n + 1 → ∀ x : Fin n → ℚ, Solves (m.rref.values m.rows (n + 1)) x ↔
      Solves (m.values m.rows (n + 1)) x := by
  obtain ⟨A, eliminated, echelon⟩ := eliminate_exact finite exact
  obtain ⟨B, scaled, echelon, unit⟩ := pivots_exact eliminated echelon exact
  obtain ⟨C, cleared, echelon, unit, clean⟩ := above_exact scaled echelon unit exact
  have reduced : Carries m m.rref C := cleared.unsignedZeros
  have values : m.rref.values m.rows m.cols = block m.rows m.cols C := by
    have equal := reduced.holds.values_eq
    rwa [reduced.rows, reduced.cols] at equal
  have equivalent : RowEquivalent (m.values m.rows m.cols) (m.rref.values m.rows m.cols) :=
    values ▸ reduced.equivalent
  refine ⟨reduced.rows, reduced.cols, reduced.holds.isFinite, values ▸ echelon.isReduced unit clean,
    equivalent, ?_⟩
  intro n width x
  rw [width] at equivalent
  exact equivalent.solves x

/-- A system whose second unknown has no equation of its own. -/
def deficient : Matrix :=
  ofFn 3 4 fun i j =>
    ([[0.0, 0.0, 2.0, 6.0], [2.0, 4.0, 1.0, 5.0], [4.0, 8.0, 6.0, 22.0]].getD i []).getD j 0.0

theorem rref_reduced_deficient :
    deficient.IsFinite ∧ deficient.ExactRun ∧ (deficient.rref.values 3 4).IsReducedRowEchelon ∧
    RowEquivalent (deficient.values 3 4) (deficient.rref.values 3 4) ∧
    ∀ x : Fin 3 → ℚ, Solves (deficient.rref.values 3 4) x ↔ Solves (deficient.values 3 4) x := by
  have finite : deficient.IsFinite := by decide +kernel
  have exact : deficient.ExactRun := by decide +kernel
  obtain ⟨-, -, -, reduced, equivalent, solutions⟩ := rref_reduced deficient finite exact
  exact ⟨finite, exact, reduced, equivalent, solutions 3 rfl⟩

end Stepwise.Matrix
