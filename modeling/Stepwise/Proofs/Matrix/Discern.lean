import Stepwise.Proofs.Decimal.Rounding
import Stepwise.Proofs.Matrix.Exact

/-! Row reduction with rounding. Exact fractions are carried along and reduced by the same choices
of rows. As long as the doubles tell zero from nonzero where they are asked to, and none of them
overflows, both runs have the same pivots; what follows the forward pass moves none of them. -/
namespace Stepwise.Matrix

open Decimal (IsRational rational? isFinite)

/-- The fractions after a column, reduced as the doubles are. -/
def Elimination.follow (e : Elimination) (col : ℕ) (A : ℕ → ℕ → ℚ) : ℕ → ℕ → ℚ :=
  let row := e.pivots.length
  let best := e.matrix.pivotRow row col
  if e.matrix.rows ≤ row ∨ e.matrix.get best col == 0.0 then A else pivoted A e.matrix.rows row best col

def followColumn (state : Elimination × (ℕ → ℕ → ℚ)) (col : ℕ) : Elimination × (ℕ → ℕ → ℚ) :=
  (state.1.column col, state.1.follow col state.2)

/-- A column is passed over only where it has no entry left, a pivot is not zero, and below a pivot
nothing is left. -/
def Discerns (state : Elimination × (ℕ → ℕ → ℚ)) (col : ℕ) : Prop :=
  let row := state.1.pivots.length
  let best := state.1.matrix.pivotRow row col
  row < state.1.matrix.rows →
    if state.1.matrix.get best col == 0.0 then ∀ i < state.1.matrix.rows, row ≤ i → state.2 i col = 0
    else state.2 best col ≠ 0 ∧ ∀ i < state.1.matrix.rows, row < i →
      (state.1.column col).matrix.get i col == 0.0

instance (state : Elimination × (ℕ → ℕ → ℚ)) (col : ℕ) : Decidable (Discerns state col) :=
  inferInstanceAs (Decidable (_ → ite _ _ _))

def Discerning (m : Matrix) : Prop := Along followColumn Discerns (⟨m, []⟩, m.value) (List.range m.cols)

instance (m : Matrix) : Decidable m.Discerning := decidableAlong ..

section Finite

variable {m : Matrix} {e : Elimination}

theorem isFinite_of_snap {x : Float} (finite : isFinite (snap x)) : isFinite x := by
  unfold snap at finite
  split at finite
  · next small => exact Decimal.isFinite_of_abs_lt (y := rowEpsilon) (by decide +kernel) small
  · exact finite

/-- Both rows were finite where one was added to the other. -/
theorem isFinite_of_addedEntry {target source col : ℕ} {factor : Float}
    (finite : isFinite (m.addedEntry target source factor col)) : isFinite (m.get target col) := by
  unfold addedEntry at finite
  split at finite
  · exact (Decimal.isFinite_of_add (isFinite_of_snap finite)).1
  · exact finite

theorem isFinite_of_addRowUnlessZero {target source : ℕ} {factor : Float}
    (finite : (m.addRowUnlessZero target source factor).IsFinite) : m.IsFinite := by
  intro i row j col
  have entry := finite i (by simpa using row) j (by simpa using col)
  rw [get_addRowUnlessZero _ _ _ row col] at entry
  split at entry
  · next same => exact same ▸ isFinite_of_addedEntry entry
  · exact entry

theorem isFinite_of_clear {source col : ℕ} {factor : Float → Float → Float} {targets : List ℕ}
    (finite : (m.clear source col factor targets).IsFinite) : m.IsFinite := by
  induction targets generalizing m with
  | nil => exact finite
  | cons target rest ih => exact isFinite_of_addRowUnlessZero (ih finite)

theorem isFinite_of_swapRows {a b : ℕ} (first : a < m.rows) (second : b < m.rows)
    (finite : (m.swapRows a b).IsFinite) :
    m.IsFinite := by
  intro i row j col
  have other : (if i = a then b else if i = b then a else i) < m.rows := by
    split
    · exact second
    · split
      · exact first
      · exact row
  have entry := finite (if i = a then b else if i = b then a else i) other j col
  rw [get_swapRows a b other col] at entry
  by_cases here : i = a
  · by_cases there : b = a <;> simp_all
  · by_cases there : i = b <;> simp_all

theorem isFinite_of_column {col : ℕ} (finite : (e.column col).matrix.IsFinite) : e.matrix.IsFinite := by
  unfold Elimination.column at finite
  dsimp only at finite
  split at finite
  · exact finite
  · next room =>
    split at finite
    · exact finite
    · have present := Nat.lt_of_not_le room
      dsimp only at finite
      rw [clearBelow_eq] at finite
      have swapped := isFinite_of_clear finite
      exact isFinite_of_swapRows present (pivotRow_spec e.matrix col present).2.1 swapped

theorem isFinite_of_normalizePivot {row col : ℕ} (finite : (m.normalizePivot row col).IsFinite) :
    m.IsFinite := by
  intro i inside j column
  have entry := finite i (by rwa [rows_normalizePivot]) j (by rwa [cols_normalizePivot])
  rw [get_normalizePivot row col inside column] at entry
  by_cases scaled : i = row ∧ m.get row col != 1.0
  · rw [if_pos scaled] at entry
    exact (Decimal.isFinite_of_mul (isFinite_of_snap entry)).1
  · rwa [if_neg scaled] at entry

theorem isFinite_of_clearAbove {row col : ℕ} (finite : (m.clearAbove row col).IsFinite) : m.IsFinite := by
  rw [clearAbove_eq] at finite
  exact isFinite_of_clear finite

theorem isFinite_of_unsignedZeros (finite : m.unsignedZeros.IsFinite) : m.IsFinite := by
  intro i row j col
  have entry := finite i row j col
  rw [get_unsignedZeros row col] at entry
  split at entry
  · next zero => exact Decimal.isFinite_of_beq (by decide +kernel) zero
  · exact entry

end Finite

def Zero (m : Matrix) (i j : ℕ) : Prop := IsRational (m.get i j) 0

def epsilon : ℚ := (rational? rowEpsilon).getD 0

section Settled

variable {m : Matrix} {x : Float} {p : ℚ}

theorem epsilon_lt : 0 < epsilon ∧ epsilon < 1 / 4 := by decide +kernel

theorem isRational_snap (value : IsRational x p) (settled : p = 0 ∨ epsilon ≤ |p|) :
    IsRational (snap x) p := by
  refine snap_kept value fun small => ?_
  rcases settled with rfl | large
  · exact value
  · have bound : IsRational rowEpsilon epsilon := by decide +kernel
    exact absurd ((value.abs.lt bound).mp small) (not_lt.mpr large)

theorem isRational_of_beq_zero (zero : x == 0.0) : IsRational x 0 := by
  obtain ⟨p, value⟩ := Decimal.isRational_of_isFinite (Decimal.isFinite_of_beq (by decide +kernel) zero)
  rwa [(value.beq_iff .zero).mp zero] at value

/-- A multiple of zero is added. -/
theorem addedEntry_zero {target source col : ℕ}
    {factor : Float} (value : IsRational (m.get target col) p)
    (settled : p = 0 ∨ epsilon ≤ |p|) (zero : IsRational (m.get source col) 0)
    (finite : isFinite (m.addedEntry target source factor col)) :
    IsRational (m.addedEntry target source factor col) p := by
  unfold addedEntry at finite ⊢
  split at finite
  · next nonzero =>
    obtain ⟨-, product⟩ := Decimal.isFinite_of_add (isFinite_of_snap finite)
    obtain ⟨q, ratio⟩ := Decimal.isRational_of_isFinite (Decimal.isFinite_of_mul product).1
    rw [if_pos nonzero]
    exact isRational_snap (value.add_zero (ratio.mul_zero zero)) settled
  · next none =>
    rwa [if_neg none]

end Settled

section Columns

variable {e : Elimination} {k : ℕ}

@[simp] theorem rows_column : (e.column k).matrix.rows = e.matrix.rows := by
  unfold Elimination.column
  dsimp only
  split
  · rfl
  · split
    · rfl
    · exact rows_clearBelow ..

@[simp] theorem cols_column : (e.column k).matrix.cols = e.matrix.cols := by
  unfold Elimination.column
  dsimp only
  split
  · rfl
  · split
    · rfl
    · exact cols_clearBelow ..

/-- A column without a pivot or with one. -/
theorem column_cases (e : Elimination) (k : ℕ) :
    e.column k = e ∧ (e.matrix.rows ≤ e.pivots.length ∨
      e.matrix.get (e.matrix.pivotRow e.pivots.length k) k == 0.0) ∨
    e.pivots.length < e.matrix.rows ∧
      ¬ e.matrix.get (e.matrix.pivotRow e.pivots.length k) k == 0.0 ∧ e.column k =
        ⟨(e.matrix.swapRows e.pivots.length (e.matrix.pivotRow e.pivots.length k)).clearBelow
          e.pivots.length k, (e.pivots.length, k) :: e.pivots⟩ := by
  unfold Elimination.column
  dsimp only
  by_cases full : e.matrix.rows ≤ e.pivots.length
  · exact .inl ⟨by rw [if_pos full], .inl full⟩
  · rw [if_neg full]
    by_cases zero : e.matrix.get (e.matrix.pivotRow e.pivots.length k) k == 0.0
    · exact .inl ⟨by rw [if_pos zero], .inr zero⟩
    · exact .inr ⟨Nat.lt_of_not_le full, zero, by rw [if_neg zero]⟩

/-- A pivot that is found leaves the zeros to its left in place. -/
theorem column_zeros {m : Matrix}
    {r best : ℕ} {pivots : List (ℕ × ℕ)} (echelon : Echelon m.Zero m.rows k pivots)
    (length : pivots.length = r) (low : r ≤ best) (high : best < m.rows) (inside : k < m.cols)
    (lead : ¬ m.get best k == 0.0) (finite : ((m.swapRows r best).clearBelow r k).IsFinite)
    (cleared : ∀ i < m.rows, r < i → ((m.swapRows r best).clearBelow r k).get i k == 0.0) :
    Echelon ((m.swapRows r best).clearBelow r k).Zero m.rows (k + 1) ((r, k) :: pivots) := by
  subst length
  have room := Nat.lt_of_le_of_lt low high
  have entry {i j : ℕ} (row : i < m.rows) (col : j < m.cols) :=
    get_clearBelow (m := m.swapRows pivots.length best) room inside row col
  have swapped {i j : ℕ} (row : i < m.rows) (col : j < m.cols) := get_swapRows pivots.length best row col
  have top {j : ℕ} (col : j < m.cols) :
      ((m.swapRows pivots.length best).clearBelow pivots.length k).get pivots.length j = m.get best j := by
    rw [entry room col, if_neg (Nat.lt_irrefl _), swapped room col, if_pos rfl]
  refine echelon.pivot room ?_ ?_ ?_ ?_
  · intro i above j before
    have col := before.trans inside
    rw [Zero, entry (above.trans room) col, if_neg (by omega), swapped (above.trans room) col,
      if_neg (by omega), if_neg (by omega), Zero]
  · intro j before
    rw [Zero, top (before.trans inside)]
    exact echelon.below best low high j before
  · rw [Zero, top inside]
    exact fun zero => lead ((zero.beq_iff .zero).mpr rfl)
  · intro i lower high' j upto
    rcases Nat.lt_or_eq_of_le upto with before | rfl
    · have col := before.trans inside
      have here : (m.swapRows pivots.length best).Zero i j := by
        rw [Zero, swapped high' col, if_neg (by omega)]
        split
        · exact echelon.below _ (Nat.le_refl _) room j before
        · exact echelon.below i (by omega) high' j before
      have source : (m.swapRows pivots.length best).Zero pivots.length j := by
        rw [Zero, swapped room col, if_pos rfl]
        exact echelon.below best low high j before
      have bounded := finite i (by simpa using high') j (by simpa using col)
      rw [entry high' col, if_pos lower] at bounded
      rw [Zero, entry high' col, if_pos lower]
      exact addedEntry_zero here (.inl rfl) source bounded
    · exact isRational_of_beq_zero (cleared i high' lower)

/-- A stage of the forward pass over `origin`: the doubles and the fractions are in echelon form
with the same pivots. -/
structure Agrees (origin : Matrix) (k : ℕ) (state : Elimination × (ℕ → ℕ → ℚ)) : Prop where
  rows : state.1.matrix.rows = origin.rows
  cols : state.1.matrix.cols = origin.cols
  doubles : Echelon state.1.matrix.Zero origin.rows k state.1.pivots
  fractions : Echelon (state.2 · · = 0) origin.rows k state.1.pivots
  equivalent : RowEquivalent (origin.values origin.rows origin.cols) (block origin.rows origin.cols state.2)

theorem Agrees.column {origin : Matrix} {state : Elimination × (ℕ → ℕ → ℚ)} (agrees : Agrees origin k state)
    (inside : k < origin.cols) (discerns : Discerns state k) (finite : (state.1.column k).matrix.IsFinite) :
    Agrees origin (k + 1) (followColumn state k) := by
  obtain ⟨e, A⟩ := state
  obtain ⟨rows, cols, doubles, fractions, equivalent⟩ := agrees
  simp only [followColumn, Discerns] at *
  rcases column_cases e k with ⟨same, none⟩ | ⟨room, leads, next⟩
  · rw [same]
    have kept : e.follow k A = A := if_pos none
    rw [kept]
    have empty {i : ℕ} (low : e.pivots.length ≤ i) (high : i < origin.rows) :
        e.matrix.Zero i k ∧ A i k = 0 := by
      rcases none with full | zero
      · omega
      · have room : e.pivots.length < e.matrix.rows := by omega
        have passed := discerns room
        rw [if_pos zero] at passed
        have greatest := (pivotRow_spec e.matrix k room).2.2 i low (rows ▸ high)
        rw [magnitude_eq_zero.mpr (isRational_of_beq_zero zero)] at greatest
        exact ⟨magnitude_eq_zero.mp (Nat.le_zero.mp greatest), passed i (rows ▸ high) low⟩
    exact ⟨rows, cols, doubles.skip fun i low high => (empty low high).1,
      fractions.skip fun i low high => (empty low high).2, equivalent⟩
  · obtain ⟨low, high, -⟩ := pivotRow_spec e.matrix k room
    have found := discerns room
    rw [if_neg leads] at found
    obtain ⟨lead, cleared⟩ := found
    have pivoted : e.follow k A =
        Matrix.pivoted A e.matrix.rows e.pivots.length (e.matrix.pivotRow e.pivots.length k) k :=
      if_neg (not_or.mpr ⟨Nat.not_le_of_lt room, leads⟩)
    rw [pivoted, rows]
    have zeros := column_zeros (rows ▸ doubles) rfl low high (cols ▸ inside) leads (by rwa [next] at finite)
      (fun i high lower => by simpa only [next] using cleared i high lower)
    refine ⟨by simp [rows], by simp [cols], ?_, ?_,
      equivalent.trans (equivalent_pivoted (rows ▸ room) (rows ▸ high))⟩
    · rw [next, ← rows]
      exact zeros
    · rw [next]
      exact Echelon.pivoted fractions low (rows ▸ high) lead

theorem fst_foldl_followColumn (columns : List ℕ) (state : Elimination × (ℕ → ℕ → ℚ)) :
    (columns.foldl followColumn state).1 = columns.foldl Elimination.column state.1 := by
  induction columns generalizing state with
  | nil => rfl
  | cons col rest ih => exact ih (followColumn state col)

theorem eliminate_discerned {m : Matrix} (finite : m.eliminate.matrix.IsFinite) (discerning : m.Discerning) :
    ∃ A, Agrees m m.cols (m.eliminate, A) := by
  have last : ((List.range m.cols).foldl followColumn (⟨m, []⟩, m.value)).1.matrix.IsFinite := by
    rw [fst_foldl_followColumn]
    exact finite
  obtain ⟨-, bounded⟩ := Along.of_last (P := fun state : Elimination × (ℕ → ℕ → ℚ) => state.1.matrix.IsFinite)
    (fun _ _ => isFinite_of_column) last
  have reached := (bounded.and discerning).fold (P := fun done state => Agrees m done.length state)
    ⟨rfl, rfl, .empty, .empty, .refl _⟩ (by
    rintro done k rest state split agrees ⟨finite, discerns⟩
    obtain ⟨rfl, inside⟩ := range_split split
    rw [List.length_range] at agrees
    simpa using agrees.column inside discerns finite)
  rw [List.length_range] at reached
  exact ⟨_, by rwa [← Prod.eta (List.foldl ..), fst_foldl_followColumn] at reached⟩

end Columns

section Later

variable {origin m : Matrix} {pivots : List (ℕ × ℕ)} {row col : ℕ}

def Settled (m : Matrix) (pivot : ℕ × ℕ) : Prop := ∃ p, IsRational (m.get pivot.1 pivot.2) p ∧ epsilon ≤ |p|

theorem Settled.not_zero {pivot : ℕ × ℕ} (settled : m.Settled pivot) : ¬ m.Zero pivot.1 pivot.2 := by
  obtain ⟨p, value, large⟩ := settled
  intro zero
  rw [value.unique zero, abs_zero] at large
  exact absurd epsilon_lt.1 (not_lt.mpr large)

structure Stands (origin m : Matrix) (pivots : List (ℕ × ℕ)) : Prop where
  rows : m.rows = origin.rows
  cols : m.cols = origin.cols
  zeros : Echelon m.Zero origin.rows origin.cols pivots

theorem get_normalizePivot_other {i j : ℕ} (high : i < m.rows) (before : j < m.cols) (apart : i ≠ row) :
    (m.normalizePivot row col).get i j = m.get i j := by
  rw [get_normalizePivot row col high before, if_neg fun both => apart both.1]

/-- A pivot is made one, up to rounding. -/
theorem settled_normalize (inside : row < m.rows) (width : col < m.cols) (lead : ¬ m.Zero row col)
    (finite : isFinite ((m.normalizePivot row col).get row col)) :
    (m.normalizePivot row col).Settled (row, col) := by
  rw [get_normalizePivot row col inside width] at finite
  unfold Settled
  rw [get_normalizePivot row col inside width]
  by_cases scaled : m.get row col != 1.0
  · rw [if_pos ⟨rfl, scaled⟩] at finite ⊢
    have product := isFinite_of_snap finite
    obtain ⟨bounded, reciprocal⟩ := Decimal.isFinite_of_mul product
    obtain ⟨p, value⟩ := Decimal.isRational_of_isFinite bounded
    have nonzero : p ≠ 0 := by
      rintro rfl
      exact lead value
    obtain ⟨r, unit, quarter⟩ := value.exists_unit nonzero reciprocal product
    have large : epsilon ≤ |r| := epsilon_lt.2.le.trans quarter
    exact ⟨r, isRational_snap unit (.inr large), large⟩
  · have one : m.get row col == 1.0 := by simpa [bne] using scaled
    obtain ⟨p, value⟩ := Decimal.isRational_of_isFinite (Decimal.isFinite_of_beq (by decide +kernel) one)
    obtain rfl := (value.beq_iff .one).mp one
    rw [if_neg fun both => scaled both.2]
    exact ⟨1, value, by rw [abs_one]; linarith [epsilon_lt.2]⟩

/-- The zeros of a row outlast a multiplication. -/
theorem zero_normalize {j : ℕ} (inside : row < m.rows) (before : j < m.cols) (zero : m.Zero row j)
    (finite : isFinite ((m.normalizePivot row col).get row j)) : (m.normalizePivot row col).Zero row j := by
  rw [get_normalizePivot row col inside before] at finite
  rw [Zero, get_normalizePivot row col inside before]
  by_cases scaled : m.get row col != 1.0
  · rw [if_pos ⟨rfl, scaled⟩] at finite ⊢
    obtain ⟨q, factor⟩ := Decimal.isRational_of_isFinite (Decimal.isFinite_of_mul (isFinite_of_snap finite)).2
    exact isRational_snap (zero.zero_mul factor) (.inl rfl)
  · rwa [if_neg fun both => scaled both.2]

theorem Stands.inside (stands : Stands origin m pivots) {pivot : ℕ × ℕ} (member : pivot ∈ pivots) :
    pivot.1 < m.rows ∧ pivot.2 < m.cols := by
  rw [stands.rows, stands.cols]
  exact ⟨(stands.zeros.descending.row_lt member).trans_le stands.zeros.few, stands.zeros.inside _ member⟩

theorem Stands.normalize (stands : Stands origin m pivots) (member : (row, col) ∈ pivots)
    (finite : (m.normalizePivot row col).IsFinite) : Stands origin (m.normalizePivot row col) pivots := by
  obtain ⟨inside, width⟩ := stands.inside member
  have bounded {j : ℕ} (before : j < m.cols) : isFinite ((m.normalizePivot row col).get row j) :=
    finite row (by rwa [rows_normalizePivot]) j (by rwa [cols_normalizePivot])
  have settled := settled_normalize inside width (stands.zeros.lead _ member) (bounded width)
  refine ⟨(rows_normalizePivot ..).trans stands.rows, (cols_normalizePivot ..).trans stands.cols,
    stands.zeros.congr ?_ fun i low high j before zero => ?_⟩
  · rintro ⟨i, k⟩ here j upto
    by_cases same : i = row
    · subst same
      obtain rfl : k = col := stands.zeros.descending.col_eq here member rfl
      rcases Nat.lt_or_eq_of_le upto with before | rfl
      · have zero := stands.zeros.left _ member j before
        exact iff_of_true
          (zero_normalize inside (before.trans width) zero (bounded (before.trans width))) zero
      · exact iff_of_false settled.not_zero (stands.zeros.lead _ member)
    · obtain ⟨high, limit⟩ := stands.inside here
      rw [Zero, Zero, get_normalizePivot_other high (Nat.lt_of_le_of_lt upto limit) same]
  · have apart : i ≠ row := (Nat.lt_of_lt_of_le (stands.zeros.descending.row_lt member) low).ne'
    rwa [Zero, get_normalizePivot_other (stands.rows ▸ high) (stands.cols ▸ before) apart]

theorem settled_normalize_other (stands : Stands origin m pivots) {pivot : ℕ × ℕ} (here : pivot ∈ pivots)
    (apart : pivot.1 ≠ row) (settled : m.Settled pivot) : (m.normalizePivot row col).Settled pivot := by
  obtain ⟨p, value, large⟩ := settled
  obtain ⟨high, limit⟩ := stands.inside here
  exact ⟨p, by rwa [get_normalizePivot_other high limit apart], large⟩

/-- A row up to its pivot does not notice that a lower row is added to it. -/
theorem get_clearAbove_upto (stands : Stands origin m pivots) (member : (row, col) ∈ pivots)
    {pivot : ℕ × ℕ} (here : pivot ∈ pivots) (finite : (m.clearAbove row col).IsFinite)
    {j : ℕ} (upto : j ≤ pivot.2) {p : ℚ} (value : IsRational (m.get pivot.1 j) p)
    (settled : p = 0 ∨ epsilon ≤ |p|) : IsRational ((m.clearAbove row col).get pivot.1 j) p := by
  obtain ⟨inside, width⟩ := stands.inside member
  obtain ⟨high, limit⟩ := stands.inside here
  have early := Nat.lt_of_le_of_lt upto limit
  have bounded := finite pivot.1 (by rwa [rows_clearAbove]) j (by rwa [cols_clearAbove])
  rw [get_clearAbove inside width high early] at bounded ⊢
  by_cases above : pivot.1 < row
  · have before : j < col := Nat.lt_of_le_of_lt upto (stands.zeros.descending.col_lt here member above)
    rw [if_pos above] at bounded ⊢
    exact addedEntry_zero value settled (stands.zeros.left _ member j before) bounded
  · rwa [if_neg above]

theorem Stands.clearAbove (stands : Stands origin m pivots) (settled : ∀ pivot ∈ pivots, m.Settled pivot)
    (member : (row, col) ∈ pivots) (finite : (m.clearAbove row col).IsFinite) :
    Stands origin (m.clearAbove row col) pivots ∧ ∀ pivot ∈ pivots, (m.clearAbove row col).Settled pivot := by
  obtain ⟨inside, width⟩ := stands.inside member
  have still : ∀ pivot ∈ pivots, (m.clearAbove row col).Settled pivot := fun pivot here => by
    obtain ⟨p, value, large⟩ := settled pivot here
    exact ⟨p, get_clearAbove_upto stands member here finite (Nat.le_refl _) value (.inr large), large⟩
  refine ⟨⟨(rows_clearAbove ..).trans stands.rows, (cols_clearAbove ..).trans stands.cols,
    stands.zeros.congr (fun pivot here j upto => ?_) fun i low high j before zero => ?_⟩, still⟩
  · rcases Nat.lt_or_eq_of_le upto with before | rfl
    · have zero := stands.zeros.left pivot here j before
      exact iff_of_true (get_clearAbove_upto stands member here finite upto zero (.inl rfl)) zero
    · exact iff_of_false (still pivot here).not_zero (stands.zeros.lead pivot here)
  · have under : ¬ i < row := by
      have := stands.zeros.descending.row_lt member
      omega
    rwa [Zero, get_clearAbove inside width (stands.rows ▸ high) (stands.cols ▸ before), if_neg under]

/-- What follows the forward pass leaves the pivots where they are. -/
theorem Stands.later {e : Elimination} (stands : Stands origin e.matrix e.pivots)
    (finite : (e.pivots.foldl (fun m pivot => m.clearAbove pivot.1 pivot.2)
      (e.pivots.reverse.foldl (fun m pivot => m.normalizePivot pivot.1 pivot.2) e.matrix)).IsFinite) :
    Stands origin (e.pivots.foldl (fun m pivot => m.clearAbove pivot.1 pivot.2)
      (e.pivots.reverse.foldl (fun m pivot => m.normalizePivot pivot.1 pivot.2) e.matrix)) e.pivots := by
  obtain ⟨scaled, above⟩ := Along.of_last (P := IsFinite) (fun _ _ => isFinite_of_clearAbove) finite
  obtain ⟨-, pivots⟩ := Along.of_last (P := IsFinite) (fun _ _ => isFinite_of_normalizePivot) scaled
  have unique : e.pivots.Pairwise fun p q => q.1 < p.1 := stands.zeros.descending.pairwise
  obtain ⟨stands, settled⟩ := pivots.fold
    (P := fun done m => Stands origin m e.pivots ∧ ∀ pivot ∈ done, m.Settled pivot) ⟨stands, by simp⟩ (by
    rintro done ⟨row, col⟩ rest m split ⟨stands, settled⟩ finite
    have members {pivot : ℕ × ℕ} (member : pivot ∈ done ++ (row, col) :: rest) : pivot ∈ e.pivots :=
      List.mem_reverse.mp (split ▸ member)
    have here := members (List.mem_append_right _ (List.mem_cons_self ..))
    obtain ⟨inside, width⟩ := stands.inside here
    refine ⟨stands.normalize here finite, fun pivot member => ?_⟩
    rcases List.mem_append.mp member with early | last
    · have order : pivot.1 < row := by
        have := List.pairwise_reverse.mpr unique
        rw [← split] at this
        exact (List.pairwise_append.mp this).2.2 pivot early _ (List.mem_cons_self ..)
      exact settled_normalize_other stands (members (List.mem_append_left _ early)) order.ne
        (settled pivot early)
    · obtain rfl := List.mem_singleton.mp last
      exact settled_normalize inside width (stands.zeros.lead _ here)
        (finite row (by rwa [rows_normalizePivot]) col (by rwa [cols_normalizePivot])))
  exact (above.fold (P := fun _ m => Stands origin m e.pivots ∧ ∀ pivot ∈ e.pivots, m.Settled pivot)
    ⟨stands, fun pivot member => settled pivot (List.mem_reverse.mpr member)⟩ (by
    rintro done ⟨row, col⟩ rest m split ⟨stands, settled⟩ finite
    exact stands.clearAbove settled (split ▸ List.mem_append_right _ (List.mem_cons_self ..)) finite)).1

theorem zero_unsignedZeros {i j : ℕ} (high : i < m.rows) (before : j < m.cols) :
    m.unsignedZeros.Zero i j ↔ m.Zero i j := by
  rw [Zero, Zero, get_unsignedZeros high before]
  split
  · next zero => exact iff_of_true .zero (isRational_of_beq_zero zero)
  · rfl

theorem Stands.unsignedZeros (stands : Stands origin m pivots) : Stands origin m.unsignedZeros pivots := by
  refine ⟨stands.rows, stands.cols,
    stands.zeros.congr (fun pivot here j upto => ?_) fun i _ high j before zero => ?_⟩
  · obtain ⟨high, limit⟩ := stands.inside here
    exact zero_unsignedZeros high (Nat.lt_of_le_of_lt upto limit)
  · exact (zero_unsignedZeros (stands.rows ▸ high) (stands.cols ▸ before)).mpr zero

/-- The zeros of a finite matrix are those of its values. -/
theorem Stands.values (stands : Stands origin m pivots) (finite : m.IsFinite) :
    Echelon (m.value · · = 0) origin.rows origin.cols pivots := by
  have zero {i j : ℕ} (high : i < m.rows) (before : j < m.cols) : m.value i j = 0 ↔ m.Zero i j := by
    have value := finite.holds i high j before
    refine ⟨fun none => ?_, fun none => value.unique none⟩
    rwa [none] at value
  refine stands.zeros.congr (fun pivot here j upto => ?_) fun i _ high j before none => ?_
  · obtain ⟨high, limit⟩ := stands.inside here
    exact zero high (Nat.lt_of_le_of_lt upto limit)
  · exact (zero (stands.rows ▸ high) (stands.cols ▸ before)).mpr none

end Later

/-- A finite result has its leading entries where exact row reduction by the same choices has its pivots. -/
theorem rref_discerned {m : Matrix} (finite : m.rref.IsFinite) (discerning : m.Discerning) : ∃ A pivots,
    RowEquivalent (m.values m.rows m.cols) (block m.rows m.cols A) ∧
      Echelon (A · · = 0) m.rows m.cols pivots ∧
      m.rref.rows = m.rows ∧ m.rref.cols = m.cols ∧ Echelon (m.rref.value · · = 0) m.rows m.cols pivots := by
  have cleared := isFinite_of_unsignedZeros finite
  have scaled := (Along.of_last (P := IsFinite) (fun _ _ => isFinite_of_clearAbove) cleared).1
  have eliminated := (Along.of_last (P := IsFinite) (fun _ _ => isFinite_of_normalizePivot) scaled).1
  obtain ⟨A, rows, cols, doubles, fractions, equivalent⟩ := eliminate_discerned eliminated discerning
  have stands : Stands m m.rref m.eliminate.pivots :=
    (Stands.later ⟨rows, cols, doubles⟩ cleared).unsignedZeros
  exact ⟨A, m.eliminate.pivots, equivalent, fractions, stands.rows, stands.cols, stands.values finite⟩

end Stepwise.Matrix
