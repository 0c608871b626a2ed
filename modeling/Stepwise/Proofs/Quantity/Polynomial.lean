import Stepwise.Proofs.Quantity.Rational

/-! Polynomials with whole coefficients. Main statement: as long as the coefficients on the way are below
`2^53`, the sum, product and power of coefficient lists are those of the ring of integer polynomials. -/
section

open Polynomial (C X C_add C_neg C_1 C_mul C_pow C_injective)
open scoped Polynomial

namespace Stepwise

open Decimal (IsWhole)

theorem Exact.neg {n : Int} (small : Exact n) : Exact (-n) := by rwa [Exact, Int.natAbs_neg]

/-- The first `n` products of the coefficient of `X ^ k` in `f * g`, added up. -/
noncomputable def partialSum (f g : ℤ[X]) (k n : Nat) : Int :=
  ∑ i ∈ Finset.range n, f.coeff i * g.coeff (k - i)

/-- The products of coefficients and their partial sums are represented without loss. -/
structure ExactProduct (f g : ℤ[X]) : Prop where
  term (i j : Nat) : Exact (f.coeff i * g.coeff j)
  sum (k n : Nat) : n ≤ k + 1 → Exact (partialSum f g k n)

theorem partialSum_all (f g : ℤ[X]) (k : Nat) : partialSum f g k (k + 1) = (f * g).coeff k := by
  rw [Polynomial.coeff_mul, Finset.Nat.sum_antidiagonal_eq_sum_range_succ fun i j => f.coeff i * g.coeff j]
  rfl

theorem partialSum_stays {f g : ℤ[X]} {k n m : Nat} (le : n ≤ m)
    (rest : ∀ i, n ≤ i → i < m → f.coeff i * g.coeff (k - i) = 0) :
    partialSum f g k m = partialSum f g k n := by
  refine (Finset.sum_subset (Finset.range_subset_range.mpr le) fun i inside outside => ?_).symm
  rw [Finset.mem_range] at inside outside
  exact rest i (by omega) inside

/-- Few terms with small coefficients are multiplied without loss. -/
theorem exactProduct_of_small {f g : ℤ[X]} {d a b : Nat} (degree : f.natDegree ≤ d)
    (first : ∀ i, (f.coeff i).natAbs ≤ a) (second : ∀ i, (g.coeff i).natAbs ≤ b)
    (small : (d + 1) * (a * b) < 2 ^ 53) : ExactProduct f g := by
  have term (i j : Nat) : (f.coeff i * g.coeff j).natAbs ≤ a * b := by
    rw [Int.natAbs_mul]
    exact Nat.mul_le_mul (first i) (second j)
  have sum (k n : Nat) : (partialSum f g k n).natAbs ≤ n * (a * b) := by
    induction n with
    | zero => exact Nat.zero_le _
    | succ n ih =>
      rw [partialSum, Finset.sum_range_succ, Nat.succ_mul]
      exact (Int.natAbs_add_le ..).trans (Nat.add_le_add ih (term ..))
  refine ⟨fun i j => ?_, fun k n _ => ?_⟩
  · have := term i j
    have : a * b ≤ (d + 1) * (a * b) := Nat.le_mul_of_pos_left _ (Nat.succ_pos d)
    unfold Exact
    omega
  · have few : partialSum f g k n = partialSum f g k (min n (d + 1)) := by
      refine partialSum_stays (by omega) fun i above below => ?_
      rw [Polynomial.coeff_eq_zero_of_natDegree_lt (p := f) (by omega), Int.zero_mul]
    have bound := sum k (min n (d + 1))
    have : min n (d + 1) * (a * b) ≤ (d + 1) * (a * b) := Nat.mul_le_mul_right _ (by omega)
    rw [few]
    unfold Exact
    omega

theorem coeff_linear (m n : Int) : (C m * X + C n).coeff 0 = n ∧ (C m * X + C n).coeff 1 = m := by
  constructor
  · rw [Polynomial.coeff_add, Polynomial.coeff_C_mul, Polynomial.coeff_X_zero,
      Polynomial.coeff_C_zero, mul_zero, zero_add]
  · rw [Polynomial.coeff_add, Polynomial.coeff_C_mul, Polynomial.coeff_X_one,
      Polynomial.coeff_C_of_ne_zero Nat.one_ne_zero, mul_one, add_zero]

theorem exact_C {n : Int} (small : Exact n) (i : Nat) : Exact ((C n).coeff i) := by
  rw [Polynomial.coeff_C]
  split
  · exact small
  · decide

theorem natAbs_coeff_linear (m n : Int) (i : Nat) :
    ((C m * X + C n).coeff i).natAbs ≤ max m.natAbs n.natAbs := by
  rcases i with _ | _ | i
  · rw [(coeff_linear m n).1]
    exact Nat.le_max_right ..
  · rw [(coeff_linear m n).2]
    exact Nat.le_max_left ..
  · rw [Polynomial.coeff_eq_zero_of_natDegree_lt
      (Nat.lt_of_le_of_lt Polynomial.natDegree_linear_le (by omega))]
    exact Nat.zero_le _

theorem exact_linear {m n : Int} (first : Exact m) (second : Exact n) (i : Nat) :
    Exact ((C m * X + C n).coeff i) :=
  Nat.lt_of_le_of_lt (natAbs_coeff_linear m n i) (Nat.max_lt.mpr ⟨first, second⟩)

namespace Polynomial

variable {v : Char} {p q : Polynomial} {f g : ℤ[X]}

structure Spells (p : Polynomial) (f : ℤ[X]) : Prop where
  whole (i : Nat) : IsWhole (p.coefficient i) (f.coeff i)
  size : p.coefficients.size = f.natDegree + 1

theorem Spells.degree (spells : p.Spells f) : p.degree = f.natDegree := by
  rw [Polynomial.degree, spells.size, Nat.add_sub_cancel]

section Zeros
variable {R : Float → Int → Prop}

/-- Zeros are dropped down to the degree, whatever it is for a double to be an integer. -/
theorem dropZeros_keeps (nil : R 0.0 0) (zeros : ∀ {x a}, R x a → (x == 0.0) = (a == 0))
    {coefficients : Array Float} (value : ∀ i, R (coefficients.getD i 0.0) (f.coeff i))
    (enough : f.natDegree < coefficients.size) :
    (∀ i, R ((dropZeros coefficients).getD i 0.0) (f.coeff i)) ∧
    (dropZeros coefficients).size = f.natDegree + 1 := by
  induction coefficients using dropZeros.induct with
  | case1 coefficients more ih =>
    obtain ⟨long, zero⟩ := more
    have last : f.coeff (coefficients.size - 1) = 0 := by
      have here := value (coefficients.size - 1)
      rw [Array.back?_eq_getElem?, Array.getElem?_eq_getElem (by omega)] at zero
      rw [Array.getD_eq_getD_getElem?, Array.getElem?_eq_getElem (by omega), Option.getD_some] at here
      rw [Option.any_some, zeros here] at zero
      exact beq_iff_eq.mp zero
    have below : f.natDegree < coefficients.pop.size := by
      rw [Array.size_pop]
      by_contra high
      have top : f.natDegree = coefficients.size - 1 := by omega
      rw [← top, Polynomial.coeff_natDegree, Polynomial.leadingCoeff_eq_zero] at last
      rw [last, Polynomial.natDegree_zero] at top
      omega
    rw [dropZeros, if_pos ⟨long, zero⟩]
    refine ih (fun i => ?_) below
    by_cases inside : i < coefficients.size - 1
    · have same : coefficients.pop.getD i 0.0 = coefficients.getD i 0.0 := by
        rw [Array.getD_eq_getD_getElem?, Array.getD_eq_getD_getElem?, Array.getElem?_pop, if_pos inside]
      rw [same]
      exact value i
    · have none : coefficients.pop.getD i 0.0 = 0.0 := by
        rw [Array.getD_eq_getD_getElem?, Array.getElem?_pop, if_neg inside]
        rfl
      rw [Array.size_pop] at below
      rw [none, Polynomial.coeff_eq_zero_of_natDegree_lt (by omega)]
      exact nil
  | case2 coefficients stop =>
    rw [dropZeros, if_neg stop]
    refine ⟨value, ?_⟩
    by_contra other
    refine stop ⟨by omega, ?_⟩
    have here := value (coefficients.size - 1)
    rw [Polynomial.coeff_eq_zero_of_natDegree_lt (by omega), Array.getD_eq_getD_getElem?,
      Array.getElem?_eq_getElem (by omega), Option.getD_some] at here
    rw [Array.back?_eq_getElem?, Array.getElem?_eq_getElem (by omega), Option.any_some, zeros here]
    rfl

theorem make_keeps (nil : R 0.0 0)
    (zeros : ∀ {x a}, R x a → (x == 0.0) = (a == 0)) {coefficients : Array Float}
    (value : ∀ i (inside : i < coefficients.size), R coefficients[i] (f.coeff i))
    (enough : f.natDegree < coefficients.size) (letter : Char) :
    (∀ i, R ((make coefficients letter).coefficient i) (f.coeff i)) ∧
      (make coefficients letter).coefficients.size = f.natDegree + 1 ∧
      (make coefficients letter).letter = letter := by
  have everywhere (i : Nat) : R (coefficients.getD i 0.0) (f.coeff i) := by
    by_cases inside : i < coefficients.size
    · rw [Array.getD_eq_getD_getElem?, Array.getElem?_eq_getElem inside]
      exact value i inside
    · rw [Array.getD_eq_getD_getElem?, Array.getElem?_eq_none (by omega),
        Polynomial.coeff_eq_zero_of_natDegree_lt (by omega)]
      exact nil
  obtain ⟨kept, size⟩ := dropZeros_keeps nil zeros everywhere enough
  have nonempty : coefficients.isEmpty = false := by
    rw [Array.isEmpty_eq_false_iff, ← Array.size_pos_iff]
    omega
  rw [make, nonempty]
  exact ⟨kept, size, rfl⟩

end Zeros

theorem make_spells {coefficients : Array Float}
    (whole : ∀ i (inside : i < coefficients.size), IsWhole coefficients[i] (f.coeff i))
    (enough : f.natDegree < coefficients.size) (letter : Char) :
    (make coefficients letter).Spells f ∧ (make coefficients letter).letter = letter := by
  obtain ⟨kept, size, same⟩ := make_keeps .zero IsWhole.beq_zero whole enough letter
  exact ⟨⟨kept, size⟩, same⟩

theorem Spells.getElem (spells : p.Spells f) {i : Nat} (inside : i < p.coefficients.size) :
    IsWhole p.coefficients[i] (f.coeff i) := by
  have here := spells.whole i
  rwa [coefficient, Array.getD_eq_getD_getElem?, Array.getElem?_eq_getElem inside] at here

theorem add_spells (left : p.Spells f) (right : q.Spells g) (same : p.letter = q.letter)
    (unrounded : ∀ i, Exact ((f + g).coeff i)) :
    ∃ sum, p.add? q = some sum ∧ sum.Spells (f + g) ∧ sum.letter = p.letter := by
  refine ⟨_, by rw [add?, zipWith?, if_pos same], make_spells (fun i inside => ?_) ?_ _⟩
  · have sum := unrounded i
    rw [Polynomial.coeff_add] at sum ⊢
    rw [Array.getElem_ofFn]
    exact (left.whole i).add (right.whole i) sum
  · have bound := Polynomial.natDegree_add_le f g
    have := left.size
    have := right.size
    rw [Array.size_ofFn]
    omega

theorem scale_spells (spells : p.Spells f) {x : Float} {n : Int} (factor : IsWhole x n)
    (unrounded : ∀ i, Exact (f.coeff i * n)) :
    (p.scale x).Spells (f * C n) ∧ (p.scale x).letter = p.letter := by
  refine make_spells (fun i inside => ?_) ?_ _
  · rw [Array.getElem_map, Polynomial.coeff_mul_C]
    exact (spells.getElem _).mul factor (unrounded i)
  · have bound := Polynomial.natDegree_mul_C_le f n
    have := spells.size
    rw [Array.size_map]
    omega

theorem addConstant_spells (spells : p.Spells f) {x : Float} {n : Int} (constant : IsWhole x n)
    (unrounded : ∀ i, Exact ((f + C n).coeff i)) :
    (p.addConstant x).Spells (f + C n) ∧ (p.addConstant x).letter = p.letter := by
  refine make_spells (fun i inside => ?_) ?_ _
  · rw [Array.size_modify] at inside
    have sum := unrounded i
    rw [Polynomial.coeff_add, Polynomial.coeff_C] at sum ⊢
    rw [Array.getElem_modify]
    by_cases first : i = 0
    · rw [if_pos first] at sum ⊢
      rw [if_pos first.symm]
      exact (spells.getElem inside).add constant sum
    · rw [if_neg first, Int.add_zero, if_neg (Ne.symm first)]
      exact spells.getElem inside
  · have bound := Polynomial.natDegree_add_le f (C n)
    have := spells.size
    rw [Polynomial.natDegree_C] at bound
    rw [Array.size_modify]
    omega

/-- The loop of a product adds up the partial sums. -/
theorem convolve_whole (left : p.Spells f) (right : q.Spells g) (unrounded : ExactProduct f g)
    {k : Nat} (count : Nat) {i : Nat} {sum : Float} (before : IsWhole sum (partialSum f g k i))
    (inside : i + count ≤ k + 1) :
    IsWhole (convolve p.coefficients q.coefficients k count i sum) (partialSum f g k (i + count)) := by
  induction count generalizing i sum with
  | zero => exact before
  | succ count ih =>
    have product := (left.whole i).mul (right.whole (k - i)) (unrounded.term i (k - i))
    have next : partialSum f g k (i + 1) = partialSum f g k i + f.coeff i * g.coeff (k - i) :=
      Finset.sum_range_succ ..
    have after := before.add product (next ▸ unrounded.sum k (i + 1) (by omega))
    rw [← next] at after
    rw [show i + (count + 1) = i + 1 + count by omega]
    exact ih after (by omega)

theorem productCoefficient_whole (left : p.Spells f)
    (right : q.Spells g) (unrounded : ExactProduct f g) {k : Nat}
    (inside : k < p.coefficients.size + q.coefficients.size - 1) :
    IsWhole (productCoefficient p.coefficients q.coefficients k) ((f * g).coeff k) := by
  have sizel := left.size
  have sizer := right.size
  have first : partialSum f g k (k + 1 - q.coefficients.size) = 0 := by
    refine (partialSum_stays (Nat.zero_le _) fun i _ below => ?_).trans (Finset.sum_range_zero _)
    rw [Polynomial.coeff_eq_zero_of_natDegree_lt (p := g) (by omega), Int.mul_zero]
  have last : partialSum f g k (min k (p.coefficients.size - 1) + 1) = (f * g).coeff k := by
    rw [← partialSum_all]
    refine (partialSum_stays (by omega) fun i above below => ?_).symm
    rw [Polynomial.coeff_eq_zero_of_natDegree_lt (p := f) (by omega), Int.zero_mul]
  have start : IsWhole 0.0 (partialSum f g k (k + 1 - q.coefficients.size)) := by
    rw [first]
    exact .zero
  have loop := convolve_whole left right unrounded
    (min k (p.coefficients.size - 1) + 1 - (k + 1 - q.coefficients.size)) start (by omega)
  rw [Nat.add_sub_cancel' (by omega), last] at loop
  exact loop

theorem mul_spells (left : p.Spells f) (right : q.Spells g) (same : p.letter = q.letter)
    (unrounded : ExactProduct f g) :
    ∃ product, p.mul? q = some product ∧ product.Spells (f * g) ∧ product.letter = p.letter := by
  refine ⟨_, by rw [mul?, if_pos same], make_spells (fun i inside => ?_) ?_ _⟩
  · rw [Array.getElem_ofFn]
    rw [Array.size_ofFn] at inside
    exact productCoefficient_whole left right unrounded inside
  · have bound := Polynomial.natDegree_mul_le (p := f) (q := g)
    have := left.size
    have := right.size
    rw [Array.size_ofFn]
    omega

/-- A power is a product repeated. -/
theorem pow_spells (spells : p.Spells f) (n : Nat) (unrounded : ∀ m < n, ExactProduct (f ^ m) f) :
    (p.pow n).Spells (f ^ n) ∧ (p.pow n).letter = p.letter := by
  induction n with
  | zero =>
    refine make_spells (fun i inside => ?_) ?_ _
    · obtain rfl : i = 0 := by simpa using inside
      rw [pow_zero, Polynomial.coeff_one_zero]
      exact .one
    · rw [pow_zero, Polynomial.natDegree_one]
      exact Nat.one_pos
  | succ n ih =>
    obtain ⟨power, letter⟩ := ih fun m below => unrounded m (by omega)
    obtain ⟨product, multiplied, product_spells, product_letter⟩ :=
      mul_spells power spells letter (unrounded n (Nat.lt_succ_self n))
    rw [Polynomial.pow, multiplied, pow_succ]
    exact ⟨product_spells, product_letter.trans letter⟩

theorem monomial_spells {x : Float} {n : Int} (factor : IsWhole x n) (power : Nat) (letter : Char) :
    (monomial x power letter).Spells (C n * X ^ power) ∧ (monomial x power letter).letter = letter := by
  refine make_spells (fun i inside => ?_) ?_ _
  · rw [Array.size_push, Array.size_replicate] at inside
    rw [Array.getElem_push, Polynomial.coeff_C_mul_X_pow]
    split
    · next below =>
      rw [Array.size_replicate] at below
      rw [Array.getElem_replicate, if_neg (by omega)]
      exact .zero
    · next above =>
      rw [Array.size_replicate] at above
      rw [if_pos (by omega)]
      exact factor
  · have bound := Polynomial.natDegree_C_mul_X_pow_le n power
    rw [Array.size_push, Array.size_replicate]
    omega

/-- The letter is written without its coefficient and its exponent. -/
theorem text_of_slope (size : p.coefficients.size = 2) (offset : p.coefficient 0 == 0.0)
    (nonzero : (p.coefficient 1 == 0.0) = false) (positive : ¬ p.coefficient 1 < 0.0)
    (unit : (p.coefficient 1).abs == 1.0) :
    p.text = p.letter.toString := by
  simp [Polynomial.text, size, textBelow, offset, nonzero, positive, termText, unit,
    String.isEmpty_iff, Char.toString]

theorem text_letter (spells : p.Spells X) : p.text = p.letter.toString := by
  have size : p.coefficients.size = 2 := by rw [spells.size, Polynomial.natDegree_X]
  have zero : p.coefficient 0 == 0.0 := by
    have here := spells.whole 0
    rw [Polynomial.coeff_X_zero] at here
    rw [here.beq_zero]
    rfl
  have one : p.coefficient 1 = 1.0 := by
    have here := spells.whole 1
    rw [Polynomial.coeff_X_one] at here
    exact here.eq_one
  exact text_of_slope size zero (by rw [one]; decide +kernel) (by rw [one]; decide +kernel)
    (by rw [one]; decide +kernel)

end Polynomial

/-- What an operation makes of two expansions. The exponent of a power is a number. -/
noncomputable def Operation.expand (operation : Operation) (f g : ℤ[X]) : ℤ[X] :=
  match operation with
  | .add => f + g
  | .subtract => f - g
  | .multiply => f * g
  | .power => f ^ (g.coeff 0).toNat
  | .divide => 0

/-- The numbers that a power meets are represented without loss. The power of a number is taken for
doubles, and has to be exact. -/
structure ExactPower (f : ℤ[X]) (n : Nat) : Prop where
  number (a : Int) : f = C a → Exact (a ^ n) ∧ ∀ x y, IsWhole x a → IsWhole y n → IsWhole (x.pow y) (a ^ n)
  polynomial : 0 < f.natDegree → ∀ m < n, ExactProduct (f ^ m) f

/-- The powers of the letter itself meet no number but zero and one. -/
theorem exactPower_X {n : Nat} (small : n ≤ maxPolynomialPower) : ExactPower X n where
  number a same := absurd (congrArg Polynomial.natDegree same) (by simp)
  polynomial _ m below := by
    have bound : m + 1 ≤ maxPolynomialPower := by omega
    refine exactProduct_of_small (d := m) (a := 1) (b := 1) (by simp) (fun i => ?_) (fun i => ?_)
      (Nat.lt_of_le_of_lt (Nat.mul_le_mul_right _ bound) (by decide))
    · rw [Polynomial.coeff_X_pow]
      split <;> decide
    · rw [Polynomial.coeff_X]
      split <;> decide

/-- The operation makes a polynomial of polynomials: it is no quotient, and a power is to a whole number of
at most 32. -/
def Operation.Expandable (operation : Operation) (g : ℤ[X]) : Prop :=
  match operation with
  | .add | .subtract | .multiply => True
  | .power => ∃ n ≤ maxPolynomialPower, g = C (n : Int)
  | .divide => False

def Operation.IsExact (operation : Operation) (f g : ℤ[X]) : Prop :=
  match operation with
  | .add => ∀ i, Exact ((f + g).coeff i)
  | .subtract => ∀ i, Exact ((f - g).coeff i)
  | .multiply => ExactProduct f g
  | .power => ∀ n : Nat, g = C (n : Int) → ExactPower f n
  | .divide => True

namespace Quantity

inductive Expands (v : Char) : Quantity → ℤ[X] → Prop
  | whole {x : Float} {n : Int} {f : ℤ[X]} (value : IsWhole x n) (flat : f = C n) : Expands v (constant x) f
  | proper {p : Polynomial} {f : ℤ[X]} (letter : p.letter = v) (spells : p.Spells f)
      (positive : 0 < f.natDegree) :
      Expands v (polynomial p) f

variable {v : Char} {a b : Quantity} {f g : ℤ[X]}

theorem expands_normalized {p : Polynomial} (spells : p.Spells f) (letter : p.letter = v) :
    (polynomial p).normalized.Expands v f := by
  rw [normalized, spells.degree]
  by_cases flat : f.natDegree = 0
  · rw [if_pos flat]
    exact .whole (spells.whole 0) (Polynomial.eq_C_of_natDegree_eq_zero flat)
  · rw [if_neg flat]
    exact .proper letter spells (by omega)

theorem value_polynomial {p : Polynomial} (spells : p.Spells f) (positive : 0 < f.natDegree) :
    (polynomial p).value? = none ∧ (polynomial p).isConstant = false := by
  have degree := spells.degree
  constructor
  · rw [value?, if_neg (by omega)]
  · rw [isConstant, beq_eq_false_iff_ne]
    omega

theorem add_plain (left : a.Expands v f) (right : b.Expands v g) : a.add b = plainSum a b := by
  cases left <;> cases right <;> rfl

theorem mul_plain (left : a.Expands v f) (right : b.Expands v g) : a.mul b = plainProduct a b := by
  cases left <;> cases right <;> rfl

theorem add_expands (left : a.Expands v f) (right : b.Expands v g)
    (unrounded : ∀ i, Exact ((f + g).coeff i)) :
    ∃ c, a.add b = .ok (some c) ∧ c.Expands v (f + g) := by
  rw [add_plain left right]
  cases left with
  | @whole x m f value flat =>
    subst flat
    cases right with
    | @whole y n g value' flat' =>
      subst flat'
      have sum : Exact (m + n) := by simpa using unrounded 0
      have total := value.add value' sum
      refine ⟨_, number_whole total "addition", .whole total (C_add ..).symm⟩
    | @proper q g letter spells positive =>
      obtain ⟨moved, same⟩ := Polynomial.addConstant_spells spells value (by rwa [add_comm])
      obtain ⟨none, _⟩ := value_polynomial spells positive
      rw [add_comm]
      exact ⟨_, by simp only [plainSum, none]; rfl, expands_normalized moved (same.trans letter)⟩
  | @proper p f letter spells positive =>
    obtain ⟨none, _⟩ := value_polynomial spells positive
    cases right with
    | @whole y n g value' flat' =>
      subst flat'
      obtain ⟨moved, same⟩ := Polynomial.addConstant_spells spells value' unrounded
      exact ⟨_, by simp only [plainSum, none]; rfl, expands_normalized moved (same.trans letter)⟩
    | @proper q g letter' spells' positive' =>
      obtain ⟨sum, added, total, same⟩ :=
        Polynomial.add_spells spells spells' (letter.trans letter'.symm) unrounded
      exact ⟨_, by simp only [plainSum, none, added]; rfl, expands_normalized total (same.trans letter)⟩

theorem Expands.neg (expands : a.Expands v f) : (a.scale (-1.0)).Expands v (-f) := by
  cases expands with
  | whole value flat => exact .whole (Quotient.whole_neg value) (by rw [flat, C_neg])
  | proper letter spells positive =>
    have minus : IsWhole (-1.0) (-1) := IsWhole.one.neg
    obtain ⟨scaled, same⟩ := Polynomial.scale_spells spells minus fun i => by
      rw [Int.mul_neg_one]
      exact Exact.neg (spells.whole i).small
    have turned : f * C (-1) = -f := by rw [C_neg, C_1, mul_neg_one]
    rw [turned] at scaled
    exact .proper (same.trans letter) scaled (by rwa [Polynomial.natDegree_neg])

theorem sub_expands (left : a.Expands v f) (right : b.Expands v g)
    (unrounded : ∀ i, Exact ((f - g).coeff i)) :
    ∃ c, a.sub b = .ok (some c) ∧ c.Expands v (f - g) := by
  rw [sub_eq_add_neg] at unrounded ⊢
  exact add_expands left right.neg unrounded

/-- A polynomial times a number. -/
theorem scale_expands {p : Polynomial} (spells : p.Spells f) (letter : p.letter = v) {x : Float} {n : Int}
    (factor : IsWhole x n) (unrounded : ∀ i, Exact (f.coeff i * n)) :
    ((polynomial p).scale x).normalized.Expands v (f * C n) := by
  obtain ⟨scaled, same⟩ := Polynomial.scale_spells spells factor unrounded
  exact expands_normalized scaled (same.trans letter)

theorem mul_expands (left : a.Expands v f) (right : b.Expands v g) (unrounded : ExactProduct f g) :
    ∃ c, a.mul b = .ok (some c) ∧ c.Expands v (f * g) := by
  rw [mul_plain left right]
  cases left with
  | @whole x m f value flat =>
    subst flat
    cases right with
    | @whole y n g value' flat' =>
      subst flat'
      have product : Exact (m * n) := by simpa using unrounded.term 0 0
      have total := value.mul value' product
      exact ⟨_, number_whole total "multiplication", .whole total (C_mul ..).symm⟩
    | @proper q g letter spells positive =>
      obtain ⟨none, nonconstant⟩ := value_polynomial spells positive
      rw [mul_comm]
      refine ⟨_, ?_, scale_expands spells letter value fun i => ?_⟩
      · simp only [plainProduct, none, nonconstant]
        rfl
      · rw [mul_comm]
        simpa using unrounded.term 0 i
  | @proper p f letter spells positive =>
    obtain ⟨none, nonconstant⟩ := value_polynomial spells positive
    cases right with
    | @whole y n g value' flat' =>
      subst flat'
      refine ⟨_, ?_, scale_expands spells letter value' fun i => by simpa using unrounded.term i 0⟩
      simp only [plainProduct, none]
      rfl
    | @proper q g letter' spells' positive' =>
      obtain ⟨product, multiplied, total, same⟩ :=
        Polynomial.mul_spells spells spells' (letter.trans letter'.symm) unrounded
      exact ⟨_, by simp only [plainProduct, none, multiplied]; rfl,
        expands_normalized total (same.trans letter)⟩

theorem pow_expands {n : Nat} (left : a.Expands v f) (right : b.Expands v (C (n : Int)))
    (small : n ≤ maxPolynomialPower) (unrounded : ExactPower f n) :
    ∃ c, a.pow b = .ok (some c) ∧ c.Expands v (f ^ n) := by
  cases right with
  | proper letter spells positive => simp at positive
  | @whole y k _ exponent flat' =>
    obtain rfl : k = n := (C_injective flat').symm
    cases left with
    | @whole x m f value flat =>
      have total := (unrounded.number m flat).2 x y value exponent
      refine ⟨_, ?_, .whole total (by rw [flat, C_pow])⟩
      exact number_whole total "power"
    | @proper p f letter spells positive =>
      obtain ⟨none, nonconstant⟩ := value_polynomial spells positive
      obtain ⟨power, same⟩ := Polynomial.pow_spells spells n (unrounded.polynomial positive)
      have whole : polynomialPower? y = some n := by
        simp [polynomialPower?, exponent.toWhole, small]
      refine ⟨_, ?_, expands_normalized power (same.trans letter)⟩
      simp only [pow, value?, nonconstant, whole]
      rfl

/-- An operation on two expansions gives their expansion. -/
theorem apply_expands {operation : Operation} (left : a.Expands v f) (right : b.Expands v g)
    (expandable : operation.Expandable g) (unrounded : operation.IsExact f g) :
    ∃ c, a.apply operation b = .ok (some c) ∧ c.Expands v (operation.expand f g) := by
  cases operation with
  | add => exact add_expands left right unrounded
  | subtract => exact sub_expands left right unrounded
  | multiply => exact mul_expands left right unrounded
  | divide => exact expandable.elim
  | power =>
    obtain ⟨n, small, rfl⟩ := expandable
    have same : Operation.expand .power f (C (n : Int)) = f ^ n := by simp [Operation.expand]
    rw [same]
    exact pow_expands left right small (unrounded n rfl)

/-- A linear expansion shows its slope and its offset. -/
theorem Expands.linear {v : Char} {q : Quantity} {m n : Int} (expands : q.Expands v (C m * X + C n))
    (slope : m ≠ 0) :
    ∃ p, q = polynomial p ∧ p.letter = v ∧ p.degree = 1 ∧ IsWhole (p.coefficient 0) n ∧
      IsWhole (p.coefficient 1) m := by
  have degree := Polynomial.natDegree_linear (b := n) slope
  obtain ⟨zero, one⟩ := coeff_linear m n
  generalize C m * X + C n = f at expands degree zero one
  cases expands with
  | whole value flat =>
    rw [flat, Polynomial.natDegree_C] at degree
    omega
  | @proper p _ letter spells positive =>
    exact ⟨p, rfl, letter, spells.degree.trans degree, zero ▸ spells.whole 0, one ▸ spells.whole 1⟩

/-- A term with the letter. -/
theorem monomial_expands {x : Float} {m : Int} (factor : IsWhole x m) (slope : m ≠ 0) (v : Char) :
    (Quantity.polynomial (.monomial x 1 v)).Expands v (C m * X) := by
  obtain ⟨spells, letter⟩ := Polynomial.monomial_spells factor 1 v
  rw [pow_one] at spells
  exact .proper letter spells (by rw [Polynomial.natDegree_C_mul_X m slope]; exact Nat.one_pos)

end Quantity

end Stepwise

end
