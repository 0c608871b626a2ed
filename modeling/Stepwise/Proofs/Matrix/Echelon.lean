import Mathlib

/-! Echelon form as row reduction reaches it, column by column. A pivot list has its last pivot
first, and `Echelon` says which entries are zero once `k` columns are done; what being zero means is
a parameter. Pivots that are one and alone in their columns make the form reduced. Matrices that
an invertible matrix takes into each other are systems with the same solutions. -/

abbrev RationalMatrix (r c : ℕ) := Matrix (Fin r) (Fin c) ℚ

namespace Stepwise

section Along

variable {α β : Type*}

/-- A condition that holds at every step of a fold. -/
def Along (step : β → α → β) (condition : β → α → Prop) : β → List α → Prop
  | _, [] => True
  | state, item :: rest => condition state item ∧ Along step condition (step state item) rest

instance decidableAlong (step : β → α → β) (condition : β → α → Prop)
    [∀ state item, Decidable (condition state item)] :
    ∀ state items, Decidable (Along step condition state items)
  | _, [] => inferInstanceAs (Decidable True)
  | state, item :: rest =>
    have := decidableAlong step condition (step state item) rest
    inferInstanceAs (Decidable (condition state item ∧ Along step condition (step state item) rest))

/-- What holds of the items done so far and the state they led to, holds at the end. -/
theorem Along.fold {step : β → α → β} {condition : β → α → Prop} {P : List α → β → Prop}
    {items : List α} {start : β} (along : Along step condition start items) (initial : P [] start)
    (next : ∀ done item rest state, done ++ item :: rest = items → P done state →
      condition state item → P (done ++ [item]) (step state item)) :
    P items (items.foldl step start) := by
  have go (done rest : List α) (state : β) (split : done ++ rest = items) (holds : P done state)
      (along : Along step condition state rest) : P items (rest.foldl step state) := by
    induction rest generalizing done state with
    | nil => simpa [← split] using holds
    | cons item rest ih =>
      have more := next done item rest state split holds along.1
      exact ih (done ++ [item]) (step state item) (by simp [split]) more along.2
  exact go [] items start rfl initial along

/-- What a step never establishes holds all the way to an end at which it holds. -/
theorem Along.of_last {step : β → α → β}
    {P : β → Prop} (back : ∀ state item, P (step state item) → P state) {items : List α} {start : β}
    (last : P (items.foldl step start)) :
    P start ∧ Along step (fun state item => P (step state item)) start items := by
  induction items generalizing start with
  | nil => exact ⟨last, trivial⟩
  | cons item rest ih =>
    obtain ⟨next, along⟩ := ih last
    exact ⟨back start item next, next, along⟩

theorem Along.and {step : β → α → β} {first second : β → α → Prop} {items : List α} {start : β}
    (one : Along step first start items) (two : Along step second start items) :
    Along step (fun state item => first state item ∧ second state item) start items := by
  induction items generalizing start with
  | nil => trivial
  | cons item rest ih => exact ⟨⟨one.1, two.1⟩, ih one.2 two.2⟩

theorem range_split {n k : ℕ} {done rest : List ℕ} (split : done ++ k :: rest = List.range n) :
    done = List.range k ∧ k < n := by
  have length := congrArg List.length split
  simp only [List.length_append, List.length_cons, List.length_range] at length
  have here : (List.range n)[done.length]? = some k := by simp [← split]
  have index : done.length = k := by
    rw [List.getElem?_range (by omega)] at here
    exact Option.some.inj here
  have before : done = (List.range n).take done.length := by simp [← split]
  refine ⟨?_, by omega⟩
  rw [before, List.take_range, index]
  congr 1
  omega

end Along

/-- Each pivot stands below and to the right of those after it, and no row above one lacks one. -/
def Descending : List (ℕ × ℕ) → Prop
  | [] => True
  | (row, col) :: above => row = above.length ∧ (∀ pivot ∈ above, pivot.2 < col) ∧ Descending above

namespace Descending

variable {pivots : List (ℕ × ℕ)}

theorem row_lt (descending : Descending pivots) {pivot : ℕ × ℕ} (member : pivot ∈ pivots) :
    pivot.1 < pivots.length := by
  induction pivots with
  | nil => cases member
  | cons last above ih =>
    obtain ⟨row, -, rest⟩ := descending
    rcases List.mem_cons.mp member with rfl | later
    · exact Nat.lt_succ_of_le (Nat.le_of_eq row)
    · exact Nat.lt_succ_of_lt (ih rest later)

theorem exists_row (descending : Descending pivots) {row : ℕ} (inside : row < pivots.length) :
    ∃ col, (row, col) ∈ pivots := by
  induction pivots with
  | nil => cases inside
  | cons last above ih =>
    obtain ⟨same, -, rest⟩ := descending
    rcases Nat.lt_succ_iff_lt_or_eq.mp inside with earlier | here
    · obtain ⟨col, member⟩ := ih rest earlier
      exact ⟨col, List.mem_cons_of_mem _ member⟩
    · exact ⟨last.2, by rw [here, ← same]; exact List.mem_cons_self ..⟩

theorem col_lt (descending : Descending pivots) {p q : ℕ × ℕ} (first : p ∈ pivots) (second : q ∈ pivots)
    (above : p.1 < q.1) : p.2 < q.2 := by
  induction pivots with
  | nil => cases first
  | cons last rest ih =>
    obtain ⟨row, left, tail⟩ := descending
    rcases List.mem_cons.mp first with rfl | earlier
    · rcases List.mem_cons.mp second with rfl | later
      · exact absurd above (Nat.lt_irrefl _)
      · have := tail.row_lt later
        exact absurd above (by omega)
    · rcases List.mem_cons.mp second with rfl | later
      · exact left p earlier
      · exact ih tail earlier later

theorem col_eq (descending : Descending pivots) {p q : ℕ × ℕ} (first : p ∈ pivots) (second : q ∈ pivots)
    (same : p.1 = q.1) : p.2 = q.2 := by
  induction pivots with
  | nil => cases first
  | cons last rest ih =>
    obtain ⟨row, -, tail⟩ := descending
    rcases List.mem_cons.mp first with rfl | earlier
    · rcases List.mem_cons.mp second with rfl | later
      · rfl
      · have := tail.row_lt later
        omega
    · rcases List.mem_cons.mp second with rfl | later
      · have := tail.row_lt earlier
        omega
      · exact ih tail earlier later

theorem nodup_cols (descending : Descending pivots) : (pivots.map Prod.snd).Nodup := by
  induction pivots with
  | nil => exact .nil
  | cons last rest ih =>
    obtain ⟨-, order, tail⟩ := descending
    refine List.nodup_cons.mpr ⟨fun member => ?_, ih tail⟩
    obtain ⟨pivot, earlier, same⟩ := List.mem_map.mp member
    exact (order pivot earlier).ne same

theorem pairwise (descending : Descending pivots) : pivots.Pairwise fun p q => q.1 < p.1 := by
  induction pivots with
  | nil => exact .nil
  | cons last rest ih =>
    obtain ⟨row, -, tail⟩ := descending
    exact .cons (fun pivot member => row ▸ tail.row_lt member) (ih tail)

end Descending

/-- The first `k` columns are in echelon form. -/
structure Echelon (zero : ℕ → ℕ → Prop) (rows k : ℕ) (pivots : List (ℕ × ℕ)) : Prop where
  descending : Descending pivots
  few : pivots.length ≤ rows
  inside : ∀ pivot ∈ pivots, pivot.2 < k
  lead : ∀ pivot ∈ pivots, ¬ zero pivot.1 pivot.2
  left : ∀ pivot ∈ pivots, ∀ j < pivot.2, zero pivot.1 j
  below : ∀ i, pivots.length ≤ i → i < rows → ∀ j < k, zero i j

namespace Echelon

variable {zero zero' : ℕ → ℕ → Prop} {rows k : ℕ} {pivots : List (ℕ × ℕ)}

theorem empty : Echelon zero rows 0 [] where
  descending := trivial
  few := Nat.zero_le _
  inside := by simp
  lead := by simp
  left := by simp
  below := fun _ _ _ _ impossible => absurd impossible (Nat.not_lt_zero _)

/-- A column without a pivot. -/
theorem skip (echelon : Echelon zero rows k pivots) (column : ∀ i, pivots.length ≤ i → i < rows → zero i k) :
    Echelon zero rows (k + 1) pivots where
  descending := echelon.descending
  few := echelon.few
  inside pivot member := Nat.lt_succ_of_lt (echelon.inside pivot member)
  lead := echelon.lead
  left := echelon.left
  below i low high j inside := by
    rcases Nat.lt_succ_iff_lt_or_eq.mp inside with earlier | rfl
    · exact echelon.below i low high j earlier
    · exact column i low high

/-- A column with a pivot, cleared below it. The rows above stay as they are. -/
theorem pivot (echelon : Echelon zero rows k pivots) (room : pivots.length < rows)
    (above : ∀ i < pivots.length, ∀ j < k, zero' i j ↔ zero i j) (left : ∀ j < k, zero' pivots.length j)
    (lead : ¬ zero' pivots.length k) (below : ∀ i, pivots.length < i → i < rows → ∀ j ≤ k, zero' i j) :
    Echelon zero' rows (k + 1) ((pivots.length, k) :: pivots) where
  descending := ⟨rfl, echelon.inside, echelon.descending⟩
  few := room
  inside pivot member := by
    rcases List.mem_cons.mp member with rfl | earlier
    · exact Nat.lt_succ_self k
    · exact Nat.lt_succ_of_lt (echelon.inside pivot earlier)
  lead pivot member := by
    rcases List.mem_cons.mp member with rfl | earlier
    · exact lead
    · rw [above _ (echelon.descending.row_lt earlier) _ (echelon.inside pivot earlier)]
      exact echelon.lead pivot earlier
  left pivot member j before := by
    rcases List.mem_cons.mp member with rfl | earlier
    · exact left j before
    · rw [above _ (echelon.descending.row_lt earlier) _ (before.trans (echelon.inside pivot earlier))]
      exact echelon.left pivot earlier j before
  below i low high j inside := below i low high j (Nat.le_of_lt_succ inside)

/-- Rows may change behind their pivots. -/
theorem congr (echelon : Echelon zero rows k pivots)
    (leads : ∀ pivot ∈ pivots, ∀ j ≤ pivot.2, zero' pivot.1 j ↔ zero pivot.1 j)
    (below : ∀ i, pivots.length ≤ i → i < rows → ∀ j < k, zero i j → zero' i j) :
    Echelon zero' rows k pivots where
  descending := echelon.descending
  few := echelon.few
  inside := echelon.inside
  lead pivot member := mt (leads pivot member _ (Nat.le_refl _)).mp (echelon.lead pivot member)
  left pivot member j before :=
    (leads pivot member j (Nat.le_of_lt before)).mpr (echelon.left pivot member j before)
  below i low high j inside := below i low high j inside (echelon.below i low high j inside)

/-- Only the last pivot can stand in the last column. -/
theorem dropLast {n : ℕ} (echelon : Echelon zero rows (n + 1) pivots) :
    (Echelon zero rows n pivots ∧ ∀ pivot ∈ pivots, pivot.2 < n) ∨
      ∃ above, pivots = (above.length, n) :: above ∧ Echelon zero rows n above := by
  obtain ⟨descending, few, inside, lead, left, below⟩ := echelon
  by_cases short : ∀ pivot ∈ pivots, pivot.2 < n
  · exact .inl ⟨⟨descending, few, short, lead, left, fun i low high j before =>
      below i low high j (by omega)⟩, short⟩
  cases pivots with
  | nil => simp at short
  | cons last above =>
    obtain ⟨row, order, rest⟩ := descending
    have here : last.2 = n := by
      push Not at short
      obtain ⟨pivot, member, beyond⟩ := short
      have := inside last (List.mem_cons_self ..)
      rcases List.mem_cons.mp member with rfl | earlier
      · omega
      · have := order pivot earlier
        omega
    refine .inr ⟨above, by rw [← row, ← here], rest, by simp at few; omega, fun pivot member =>
      here ▸ order pivot member, fun pivot member => lead pivot (List.mem_cons_of_mem _ member),
      fun pivot member => left pivot (List.mem_cons_of_mem _ member), fun i low high j before => ?_⟩
    rcases Nat.lt_or_eq_of_le low with lower | same
    · exact below i lower high j (by omega)
    · rw [← same, ← row]
      exact left last (List.mem_cons_self ..) j (here ▸ before)

end Echelon

def block (r c : ℕ) (A : ℕ → ℕ → ℚ) : RationalMatrix r c := fun i j => A i j

/-- The unknowns satisfy the equations of an augmented matrix, its last column holding the constants. -/
def Solves {r n : ℕ} (A : RationalMatrix r (n + 1)) (x : Fin n → ℚ) : Prop :=
  ∀ i, ∑ j : Fin n, A i j.castSucc * x j = A i (Fin.last n)

section Reduced

variable {A : ℕ → ℕ → ℚ} {r c : ℕ} {pivots : List (ℕ × ℕ)}

/-- Whether a row has a leading entry, and where. -/
theorem Echelon.isLeadingEntry_iff (echelon : Echelon (A · · = 0) r c pivots) (i : Fin r) (j : Fin c) :
    (block r c A).IsLeadingEntry i j ↔ (i.val, j.val) ∈ pivots := by
  constructor
  · rintro ⟨before, here⟩
    have short : i.val < pivots.length := by
      by_contra low
      exact here (echelon.below i (Nat.le_of_not_lt low) i.isLt j j.isLt)
    obtain ⟨col, member⟩ := echelon.descending.exists_row short
    rcases Nat.lt_trichotomy col j with less | same | more
    · exact absurd (before ⟨col, less.trans j.isLt⟩ less) (echelon.lead _ member)
    · exact same ▸ member
    · exact absurd (echelon.left _ member j more) here
  · intro member
    exact ⟨fun k before => echelon.left _ member k before, echelon.lead _ member⟩

theorem Echelon.isRowEchelon (echelon : Echelon (A · · = 0) r c pivots) : (block r c A).IsRowEchelon := by
  intro i₁ i₂ above j₂ zeros
  by_cases low : i₂.val < pivots.length
  · obtain ⟨col₂, second⟩ := echelon.descending.exists_row low
    obtain ⟨col₁, first⟩ := echelon.descending.exists_row (Nat.lt_trans above low)
    have order := echelon.descending.col_lt first second above
    have behind : j₂.val ≤ col₁ := by
      by_contra before
      have less := Nat.lt_of_not_le before
      exact echelon.lead _ first (zeros ⟨col₁, less.trans j₂.isLt⟩ less)
    exact echelon.left _ second j₂ (Nat.lt_of_le_of_lt behind order)
  · exact echelon.below i₂ (Nat.le_of_not_lt low) i₂.isLt j₂ j₂.isLt

/-- Pivots that are one and have only zeros above them. -/
theorem Echelon.isReduced (echelon : Echelon (A · · = 0) r c pivots)
    (unit : ∀ pivot ∈ pivots, A pivot.1 pivot.2 = 1)
    (clean : ∀ pivot ∈ pivots, ∀ i < pivot.1, A i pivot.2 = 0) :
    (block r c A).IsReducedRowEchelon where
  isRowEchelon := echelon.isRowEchelon
  eq_one i j leading := unit _ ((echelon.isLeadingEntry_iff i j).mp leading)
  eq_zero i₁ i₂ j above leading := clean _ ((echelon.isLeadingEntry_iff i₂ j).mp leading) i₁ above

/-- The rank is the number of pivots. -/
theorem Echelon.rank_eq (echelon : Echelon (A · · = 0) r c pivots) : (block r c A).rank = pivots.length := by
  have lead (i : Fin r) : ∃ l : WithTop (Fin c), (l = ⊤ ↔ pivots.length ≤ i) ∧
      ∀ j : Fin c, l = j → (i.val, j.val) ∈ pivots := by
    by_cases low : pivots.length ≤ i
    · exact ⟨⊤, by simp [low], by simp⟩
    · obtain ⟨col, member⟩ := echelon.descending.exists_row (Nat.lt_of_not_le low)
      refine ⟨(⟨col, echelon.inside _ member⟩ : Fin c), by simp [low], fun j same => ?_⟩
      rw [← WithTop.coe_inj.mp same]
      exact member
  choose l top here using lead
  have pivoted : (block r c A).IsPivotedBy l := by
    refine ⟨echelon.isRowEchelon, fun i => ⟨fun j before => ?_, fun j same => echelon.lead _ (here i j same)⟩⟩
    by_cases low : pivots.length ≤ i
    · exact echelon.below i low i.isLt j j.isLt
    · obtain ⟨k, same⟩ := WithTop.ne_top_iff_exists.mp (mt (top i).mp low)
      rw [← same, WithTop.coe_lt_coe] at before
      exact echelon.left _ (here i k same.symm) j before
  have count : Finset.univ.filter (fun i => l i ≠ ⊤) = Finset.univ.filter fun i : Fin r =>
      i.val < pivots.length := by
    ext i
    simp [top]
  rw [pivoted.rank_eq, count, Fin.card_filter_val_lt, Nat.min_eq_right echelon.few]

/-- The rows with a pivot can be solved, whatever the unknowns from `k` on are. -/
theorem exists_row_solution (b : ℕ → ℚ) (descending : Descending pivots)
    (inside : ∀ pivot ∈ pivots, pivot.2 < c) (lead : ∀ pivot ∈ pivots, A pivot.1 pivot.2 ≠ 0)
    (left : ∀ pivot ∈ pivots, ∀ j < pivot.2, A pivot.1 j = 0) (k : ℕ)
    (before : ∀ pivot ∈ pivots, pivot.2 < k) (y : ℕ → ℚ) : ∃ x : ℕ → ℚ, (∀ j, k ≤ j → x j = y j) ∧
      ∀ pivot ∈ pivots, ∑ j ∈ Finset.range c, A pivot.1 j * x j = b pivot.1 := by
  induction pivots generalizing k y with
  | nil => exact ⟨y, fun _ _ => rfl, by simp⟩
  | cons last above ih =>
    obtain ⟨row, col⟩ := last
    obtain ⟨-, order, rest⟩ := descending
    have here := List.mem_cons_self (a := (row, col)) (l := above)
    -- the last row determines its own unknown, and the rows above leave that as it is
    let y' := Function.update y col ((b row - ∑ j ∈ (Finset.range c).erase col, A row j * y j) / A row col)
    obtain ⟨x, agrees, solves⟩ := ih rest (fun p member => inside p (List.mem_cons_of_mem _ member))
      (fun p member => lead p (List.mem_cons_of_mem _ member))
      (fun p member => left p (List.mem_cons_of_mem _ member))
      col order y'
    refine ⟨x, fun j beyond => ?_, fun pivot member => ?_⟩
    · have other : j ≠ col := (Nat.lt_of_lt_of_le (before _ here) beyond).ne'
      rw [agrees j (Nat.le_of_lt (Nat.lt_of_lt_of_le (before _ here) beyond))]
      exact Function.update_of_ne other ..
    · rcases List.mem_cons.mp member with rfl | earlier
      · have own : y' col = (b row - ∑ j ∈ (Finset.range c).erase col, A row j * y j) / A row col :=
          Function.update_self ..
        have others : ∑ j ∈ (Finset.range c).erase col,
            A row j * x j = ∑ j ∈ (Finset.range c).erase col, A row j * y j := by
          refine Finset.sum_congr rfl fun j chosen => ?_
          have other := Finset.ne_of_mem_erase chosen
          rcases Nat.lt_or_gt_of_ne other with early | late
          · rw [left _ here j early, zero_mul, zero_mul]
          · rw [agrees j late.le]
            exact congrArg _ (Function.update_of_ne other ..)
        rw [← Finset.add_sum_erase _ _ (Finset.mem_range.mpr (inside _ here)), others,
          agrees col (Nat.le_refl _), own, mul_div_cancel₀ _ (lead _ here), sub_add_cancel]
      · exact solves pivot earlier

/-- A system in echelon form can be solved when no pivot stands among the constants. -/
theorem Echelon.exists_solves {n : ℕ} (echelon : Echelon (A · · = 0) r (n + 1) pivots)
    (inside : ∀ pivot ∈ pivots, pivot.2 < n) : ∃ x, Solves (block r (n + 1) A) x := by
  obtain ⟨x, -, solves⟩ :=
    exists_row_solution (A · n) echelon.descending inside echelon.lead echelon.left n inside 0
  refine ⟨fun j => x j, fun i => ?_⟩
  change ∑ j : Fin n, A i j * x j = A i n
  rw [← Finset.sum_range fun j => A i j * x j]
  by_cases low : i.val < pivots.length
  · obtain ⟨col, member⟩ := echelon.descending.exists_row low
    exact solves _ member
  · have below := echelon.below i (Nat.le_of_not_lt low) i.isLt
    rw [below n (Nat.lt_succ_self n)]
    refine Finset.sum_eq_zero fun j early => ?_
    rw [below j (Nat.lt_succ_of_lt (Finset.mem_range.mp early)), zero_mul]

/-- A pivot among the constants is an equation without a solution. -/
theorem Echelon.not_solves {n row : ℕ} (echelon : Echelon (A · · = 0) r (n + 1) pivots)
    (member : (row, n) ∈ pivots) (x : Fin n → ℚ) : ¬ Solves (block r (n + 1) A) x := by
  intro solves
  have inside : row < r := (echelon.descending.row_lt member).trans_le echelon.few
  have equation : ∑ j : Fin n, A row j * x j = A row n := solves ⟨row, inside⟩
  refine echelon.lead _ member (equation.symm.trans (Finset.sum_eq_zero fun j _ => ?_))
  rw [echelon.left _ member j j.isLt, zero_mul]

end Reduced

def RowEquivalent {r c : ℕ} (A B : RationalMatrix r c) : Prop :=
  ∃ P : RationalMatrix r r, IsUnit P ∧ B = P * A

namespace RowEquivalent

variable {r c : ℕ} {A B C : RationalMatrix r c}

theorem refl (A : RationalMatrix r c) : RowEquivalent A A := ⟨1, isUnit_one, (Matrix.one_mul A).symm⟩

theorem trans (first : RowEquivalent A B) (second : RowEquivalent B C) : RowEquivalent A C := by
  obtain ⟨P, unit, rfl⟩ := first
  obtain ⟨Q, unit', rfl⟩ := second
  exact ⟨Q * P, unit'.mul unit, (Matrix.mul_assoc Q P A).symm⟩

theorem swap (a b : Fin r) (rows : ∀ i j, B i j = A (Equiv.swap a b i) j) : RowEquivalent A B := by
  refine ⟨Matrix.swap ℚ a b, ?_, ?_⟩
  · rw [Matrix.isUnit_iff_isUnit_det]
    simp [Matrix.swap]
  · ext i j
    rw [rows, Matrix.swap, PEquiv.toMatrix_toPEquiv_mul]
    rfl

theorem scale (d : Fin r → ℚ) (nonzero : ∀ i, d i ≠ 0) (rows : ∀ i j, B i j = d i * A i j) :
    RowEquivalent A B := by
  refine ⟨Matrix.diagonal d, ?_, ?_⟩
  · rw [Matrix.isUnit_diagonal, Pi.isUnit_iff]
    exact fun i => (nonzero i).isUnit
  · ext i j
    rw [rows, Matrix.diagonal_mul]

/-- Multiples of one row are added to others. -/
theorem add (source : Fin r) (f : Fin r → ℚ) (other : f source = 0)
    (rows : ∀ i j, B i j = A i j + f i * A source j) :
    RowEquivalent A B := by
  have nilpotent : IsNilpotent (Matrix.vecMulVec f (Pi.single source 1) : RationalMatrix r r) := by
    refine ⟨2, ?_⟩
    rw [pow_two, Matrix.vecMulVec_mul_vecMulVec]
    simp [other]
  refine ⟨1 + Matrix.vecMulVec f (Pi.single source 1), nilpotent.isUnit_one_add, ?_⟩
  ext i j
  rw [rows, Matrix.add_mul, Matrix.one_mul, Matrix.add_apply, Matrix.mul_apply]
  congr 1
  simp [Matrix.vecMulVec_apply, Pi.single_apply]

/-- Row-equivalent systems have the same solutions. -/
theorem solves {n : ℕ} {A B : RationalMatrix r (n + 1)} (equivalent : RowEquivalent A B) (x : Fin n → ℚ) :
    Solves B x ↔ Solves A x := by
  have vanishes (A : RationalMatrix r (n + 1)) : Solves A x ↔ A.mulVec (Fin.snoc x (-1)) = 0 := by
    rw [funext_iff]
    refine forall_congr' fun i => ?_
    simp only [Matrix.mulVec, dotProduct, Fin.sum_univ_castSucc, Fin.snoc_castSucc, Fin.snoc_last,
      Pi.zero_apply]
    constructor <;> intro equal <;> linarith
  obtain ⟨P, unit, rfl⟩ := equivalent
  rw [vanishes, vanishes, ← Matrix.mulVec_mulVec]
  constructor
  · intro zero
    exact Matrix.mulVec_injective_of_isUnit unit (zero.trans (Matrix.mulVec_zero P).symm)
  · intro zero
    rw [zero, Matrix.mulVec_zero]

theorem rank_eq (equivalent : RowEquivalent A B) : B.rank = A.rank := by
  obtain ⟨P, unit, rfl⟩ := equivalent
  exact Matrix.rank_mul_eq_right_of_isUnit_det P A ((Matrix.isUnit_iff_isUnit_det P).mp unit)

/-- The last column takes no part in what happens to the others. -/
theorem init {n : ℕ} {A B : ℕ → ℕ → ℚ} (equivalent : RowEquivalent (block r (n + 1) A) (block r (n + 1) B)) :
    RowEquivalent (block r n A) (block r n B) := by
  obtain ⟨P, unit, equal⟩ := equivalent
  exact ⟨P, unit, Matrix.ext fun i j => congrFun (congrFun equal i) j.castSucc⟩

end RowEquivalent

end Stepwise
