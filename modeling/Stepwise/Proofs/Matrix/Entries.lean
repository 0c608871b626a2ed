import Stepwise.Matrix.RowReduction
import Stepwise.Proofs.Decimal.Value

/-! The entries that a step of row reduction leaves. No step changes the shape of a matrix, and in
a column that is cleared no row depends on what became of another. -/
namespace Stepwise.Matrix

open Decimal (IsRational)

section Shape

variable (m : Matrix) (a b row col : Nat) (factor : Float)

@[simp] theorem rows_ofFn (r c : Nat) (f : Nat → Nat → Float) : (ofFn r c f).rows = r := rfl
@[simp] theorem cols_ofFn (r c : Nat) (f : Nat → Nat → Float) : (ofFn r c f).cols = c := rfl

theorem get_ofFn {r c i j : Nat} (f : Nat → Nat → Float) (row : i < r) (col : j < c) :
    (ofFn r c f).get i j = f i j := by
  have inside : i * c + j < r * c := calc
    i * c + j < i * c + c := Nat.add_lt_add_left col _
    _ = (i + 1) * c := (Nat.succ_mul i c).symm
    _ ≤ r * c := Nat.mul_le_mul_right c row
  have width : 0 < c := Nat.zero_lt_of_lt col
  have quotient : (i * c + j) / c = i := by
    rw [Nat.mul_comm, Nat.mul_add_div width, Nat.div_eq_of_lt col, Nat.add_zero]
  have remainder : (i * c + j) % c = j := by
    rw [Nat.mul_comm, Nat.mul_add_mod, Nat.mod_eq_of_lt col]
  simp [get, ofFn, Array.getD, inside, quotient, remainder]

/-- Rows of one length other than zero form a matrix. -/
theorem ofRows_ok {entries : List (List Float)} {c : Nat} (nonempty : entries ≠ [])
    (positive : 0 < c) (width : ∀ entry ∈ entries, entry.length = c) :
    ∃ m, ofRows entries = .ok m ∧ m.rows = entries.length ∧ m.cols = c ∧
      ∀ i (row : i < entries.length) j (col : j < entries[i].length), m.get i j = entries[i][j] := by
  have first : (entries.head?.map List.length).getD 0 = c := by
    cases entries with
    | nil => exact absurd rfl nonempty
    | cons entry rest => exact width entry (List.mem_cons_self ..)
  have same : ¬ (c = 0 ∨ entries.any (·.length ≠ c)) := by
    rintro (none | other)
    · omega
    · obtain ⟨entry, member, other⟩ := List.any_eq_true.mp other
      exact of_decide_eq_true other (width entry member)
  refine ⟨_, by simp only [ofRows, first, if_neg same]; rfl, rfl, rfl, fun i row j col => ?_⟩
  rw [get_ofFn _ row (width _ (List.getElem_mem row) ▸ col)]
  simp [Array.getD, row, col]

@[simp] theorem rows_swapRows : (m.swapRows a b).rows = m.rows := rfl
@[simp] theorem cols_swapRows : (m.swapRows a b).cols = m.cols := rfl
@[simp] theorem rows_scaleRow : (m.scaleRow row factor).rows = m.rows := rfl
@[simp] theorem cols_scaleRow : (m.scaleRow row factor).cols = m.cols := rfl
@[simp] theorem rows_addRow : (m.addRow a b factor).rows = m.rows := rfl
@[simp] theorem cols_addRow : (m.addRow a b factor).cols = m.cols := rfl

@[simp] theorem rows_addRowUnlessZero : (m.addRowUnlessZero a b factor).rows = m.rows := by
  unfold addRowUnlessZero
  split <;> rfl

@[simp] theorem cols_addRowUnlessZero : (m.addRowUnlessZero a b factor).cols = m.cols := by
  unfold addRowUnlessZero
  split <;> rfl

@[simp] theorem rows_normalizePivot : (m.normalizePivot row col).rows = m.rows := by
  unfold normalizePivot
  dsimp only
  split <;> rfl

@[simp] theorem cols_normalizePivot : (m.normalizePivot row col).cols = m.cols := by
  unfold normalizePivot
  dsimp only
  split <;> rfl

end Shape

section Entries

variable {m : Matrix} {i j : Nat}

theorem get_swapRows (a b : Nat) (row : i < m.rows) (col : j < m.cols) :
    (m.swapRows a b).get i j = m.get (if i = a then b else if i = b then a else i) j := get_ofFn _ row col

theorem get_scaleRow (target : Nat) (factor : Float) (row : i < m.rows) (col : j < m.cols) :
    (m.scaleRow target factor).get i j = if i = target then snap (m.get i j * factor) else m.get i j :=
  get_ofFn _ row col

def addedEntry (m : Matrix) (target source : Nat) (factor : Float) (col : Nat) : Float :=
  if factor != 0.0 then snap (m.get target col + factor * m.get source col) else m.get target col

theorem get_addRowUnlessZero (target source : Nat) (factor : Float) (row : i < m.rows) (col : j < m.cols) :
    (m.addRowUnlessZero target source factor).get i j =
      if i = target then m.addedEntry target source factor j else m.get i j := by
  unfold addRowUnlessZero addedEntry
  split
  · rw [addRow, get_ofFn _ row col]
    by_cases same : i = target
    · rw [if_pos same, if_pos same, same]
    · rw [if_neg same, if_neg same]
  · by_cases same : i = target
    · rw [if_pos same, same]
    · rw [if_neg same]

theorem get_normalizePivot (target lead : Nat) (row : i < m.rows) (col : j < m.cols) :
    (m.normalizePivot target lead).get i j =
      if i = target ∧ m.get target lead != 1.0 then snap (m.get i j * (1.0 / m.get target lead))
      else m.get i j := by
  unfold normalizePivot
  by_cases other : m.get target lead != 1.0
  · simp only [other, if_true, and_true]
    exact get_scaleRow target _ row col
  · simp [other]

theorem get_unsignedZeros (row : i < m.rows) (col : j < m.cols) :
    m.unsignedZeros.get i j = if m.get i j == 0.0 then 0.0 else m.get i j := get_ofFn _ row col

end Entries

/-- Adds multiples of one row to others, each so chosen that it clears a column. -/
def clear (m : Matrix) (source col : Nat) (factor : Float → Float → Float) (targets : List Nat) : Matrix :=
  targets.foldl
    (fun m target => m.addRowUnlessZero target source (factor (m.get target col) (m.get source col))) m

theorem clearBelow_eq (m : Matrix) (row col : Nat) :
    m.clearBelow row col =
      m.clear row col (fun x lead => -x / lead) (List.range' (row + 1) (m.rows - (row + 1))) :=
  rfl

theorem clearAbove_eq (m : Matrix) (row col : Nat) :
    m.clearAbove row col = m.clear row col (fun x _ => -x) (List.range row) := rfl

section Clear

variable {source col i j : Nat} {factor : Float → Float → Float} {targets : List Nat}

@[simp] theorem shape_clear (m : Matrix) (source col : Nat) (factor : Float → Float → Float)
    (targets : List Nat) :
    (m.clear source col factor targets).rows = m.rows ∧
    (m.clear source col factor targets).cols = m.cols := by
  induction targets generalizing m with
  | nil => exact ⟨rfl, rfl⟩
  | cons target rest ih =>
    obtain ⟨rows, cols⟩ :=
      ih (m.addRowUnlessZero target source (factor (m.get target col) (m.get source col)))
    exact ⟨rows.trans (rows_addRowUnlessZero ..), cols.trans (cols_addRowUnlessZero ..)⟩

@[simp] theorem rows_clear (m : Matrix) : (m.clear source col factor targets).rows = m.rows :=
  (shape_clear ..).1
@[simp] theorem cols_clear (m : Matrix) : (m.clear source col factor targets).cols = m.cols :=
  (shape_clear ..).2

@[simp] theorem rows_clearBelow (m : Matrix) (row : Nat) : (m.clearBelow row col).rows = m.rows := by
  rw [clearBelow_eq, rows_clear]

@[simp] theorem cols_clearBelow (m : Matrix) (row : Nat) : (m.clearBelow row col).cols = m.cols := by
  rw [clearBelow_eq, cols_clear]

@[simp] theorem rows_clearAbove (m : Matrix) (row : Nat) : (m.clearAbove row col).rows = m.rows := by
  rw [clearAbove_eq, rows_clear]

@[simp] theorem cols_clearAbove (m : Matrix) (row : Nat) : (m.clearAbove row col).cols = m.cols := by
  rw [clearAbove_eq, cols_clear]

/-- Every target is what it would be if it were the only one. -/
theorem get_clear {m : Matrix} (distinct : targets.Nodup) (other : source ∉ targets)
    (inside : ∀ t ∈ targets, t < m.rows) (pivot : source < m.rows) (width : col < m.cols)
    (row : i < m.rows) (column : j < m.cols) :
    (m.clear source col factor targets).get i j =
      if i ∈ targets then m.addedEntry i source (factor (m.get i col) (m.get source col)) j
      else m.get i j := by
  induction targets generalizing m with
  | nil => rfl
  | cons target rest ih =>
    obtain ⟨fresh, distinct⟩ := List.nodup_cons.mp distinct
    obtain ⟨different, other⟩ := not_or.mp (mt List.mem_cons.mpr other)
    have target_inside := inside target (List.mem_cons_self ..)
    let next := m.addRowUnlessZero target source (factor (m.get target col) (m.get source col))
    have entry {k l : Nat} (row : k < m.rows) (col : l < m.cols) (untouched : k ≠ target) :
        next.get k l = m.get k l := by
      rw [get_addRowUnlessZero _ _ _ row col, if_neg untouched]
    have step := @ih next distinct other
      (fun t member => by simpa [next] using inside t (List.mem_cons_of_mem _ member))
      (by simpa [next] using pivot) (by simpa [next] using width) (by simpa [next] using row)
      (by simpa [next] using column)
    change (next.clear source col factor rest).get i j = _
    rw [step]
    by_cases later : i ∈ rest
    · have untouched : i ≠ target := fun same => fresh (same ▸ later)
      rw [if_pos later, if_pos (List.mem_cons_of_mem _ later), addedEntry, addedEntry,
        entry row width untouched, entry row column untouched, entry pivot width different,
        entry pivot column different]
    · rw [if_neg later]
      by_cases same : i = target
      · subst same
        rw [if_pos (List.mem_cons_self ..), get_addRowUnlessZero _ _ _ row column, if_pos rfl]
      · rw [if_neg (by simp [same, later]), entry row column same]

theorem get_clearBelow {m : Matrix} {row : Nat} (pivot : row < m.rows) (width : col < m.cols)
    (inside : i < m.rows) (column : j < m.cols) : (m.clearBelow row col).get i j =
      if row < i then m.addedEntry i row (-m.get i col / m.get row col) j else m.get i j := by
  have targets : i ∈ List.range' (row + 1) (m.rows - (row + 1)) ↔ row < i := by
    rw [List.mem_range'_1]
    omega
  rw [clearBelow_eq, get_clear List.nodup_range' (by simp)
    (fun t member => by have := List.mem_range'_1.mp member; omega) pivot width inside column]
  simp only [targets]

theorem get_clearAbove {m : Matrix} {row : Nat} (pivot : row < m.rows) (width : col < m.cols)
    (inside : i < m.rows) (column : j < m.cols) : (m.clearAbove row col).get i j =
      if i < row then m.addedEntry i row (-m.get i col) j else m.get i j := by
  rw [clearAbove_eq, get_clear List.nodup_range (by simp)
    (fun t member => (List.mem_range.mp member).trans pivot) pivot width inside column]
  simp only [List.mem_range]

end Clear

section Pivot

theorem magnitude_eq_zero {x : Float} : magnitude x = 0 ↔ IsRational x 0 := by
  rw [IsRational.zero_iff]
  have unpacked : x.abs.toModel.unpack = x.toModel.unpack.abs :=
    Decimal.toModel_pack (Decimal.regular_unpack x).abs
  constructor
  · intro none
    have bits : x.abs.toModel.toBits.toBitVec = 0#64 := BitVec.eq_of_toNat_eq none
    have zero : x.abs.toModel.unpack = .zero .positive := by
      rw [Float.Model.unpack, bits]
      rfl
    rw [unpacked] at zero
    generalize x.toModel.unpack = u at zero
    cases u with
    | zero s => exact ⟨s, rfl⟩
    | notANumber | infinity | finite => cases zero
  · rintro ⟨s, zero⟩
    have bits : x.abs = .ofModel (.pack (.zero .positive)) := by
      change Float.ofModel (.pack x.toModel.unpack.abs) = _
      rw [zero]
      rfl
    rw [magnitude, bits]
    rfl

/-- The row that is chosen has the greatest magnitude of those it is chosen from. -/
theorem pivotRow_spec (m : Matrix) (col : Nat) {first : Nat} (present : first < m.rows) :
    first ≤ m.pivotRow first col ∧ m.pivotRow first col < m.rows ∧ ∀ row, first ≤ row →
      row < m.rows → magnitude (m.get row col) ≤ magnitude (m.get (m.pivotRow first col) col) := by
  have chosen (best : Nat) (rows : List Nat) :
      let choice := rows.foldl
        (fun best row => if magnitude (m.get best col) ≤ magnitude (m.get row col) then row else best) best
      (choice = best ∨ choice ∈ rows) ∧ magnitude (m.get best col) ≤ magnitude (m.get choice col) ∧
        ∀ row ∈ rows, magnitude (m.get row col) ≤ magnitude (m.get choice col) := by
    induction rows generalizing best with
    | nil => exact ⟨.inl rfl, Nat.le_refl _, fun _ member => nomatch member⟩
    | cons row rest ih =>
      obtain ⟨origin, start, others⟩ :=
        ih (if magnitude (m.get best col) ≤ magnitude (m.get row col) then row else best)
      by_cases greater : magnitude (m.get best col) ≤ magnitude (m.get row col)
      · rw [if_pos greater] at origin start others
        simp only [List.foldl_cons, if_pos greater]
        refine ⟨.inr ?_, Nat.le_trans greater start, ?_⟩
        · rcases origin with same | later
          · rw [same]
            exact List.mem_cons_self ..
          · exact List.mem_cons_of_mem _ later
        · intro other member
          rcases List.mem_cons.mp member with rfl | later
          · exact start
          · exact others other later
      · rw [if_neg greater] at origin start others
        simp only [List.foldl_cons, if_neg greater]
        refine ⟨origin.imp_right (List.mem_cons_of_mem _), start, ?_⟩
        intro other member
        rcases List.mem_cons.mp member with rfl | later
        · exact Nat.le_trans (Nat.le_of_not_le greater) start
        · exact others other later
  obtain ⟨origin, -, greatest⟩ := chosen first (List.range' first (m.rows - first))
  have range : first ≤ m.pivotRow first col ∧ m.pivotRow first col < m.rows := by
    rcases origin with same | member
    · exact ⟨same.ge, same.trans_lt present⟩
    · obtain ⟨low, high⟩ := List.mem_range'_1.mp member
      exact ⟨low, Nat.lt_of_lt_of_eq high (by omega)⟩
  refine ⟨range.1, range.2, fun row low high => greatest row (List.mem_range'_1.mpr ⟨low, by omega⟩)⟩

end Pivot

end Stepwise.Matrix
