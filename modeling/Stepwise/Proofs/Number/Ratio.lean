import Stepwise.Proofs.Decimal.Difference

/-! What a double is read as when it is taken to a ratio. Its billionths are counted, and the count
is brought to lowest terms over one billion; the floating-point difference and product on the way
miss the exact count by less than a millionth. Main statement: ratios that are read have
denominators that divide one billion, and they are divided exactly and within 128 bits, unless they
are divided by zero. -/
namespace Stepwise

open Decimal (Binary IsRational FitsMantissa slack_le tenTo twoTo twoTo_pos)

namespace Decimal

theorem Binary.floor_eq (b : Binary) : b.floor = ⌊b.rational⌋ := by
  rw [Binary.floor, Binary.rational, Int.fdiv_eq_ediv_of_nonneg _ (Int.natCast_nonneg _)]
  exact (Rat.floor_intCast_div_natCast _ _).symm

theorem Binary.round_near (b : Binary) : |(b.round : ℚ) - b.rational| ≤ 1 / 2 := by
  have near := b.magnitudeTimes_near 1 .away
  have sign : b.rational = if b.negative then -|b.rational| else |b.rational| := by
    have magnitude : (0 : ℚ) ≤ (b.m * twoTo b.q.toNat : Nat) / (twoTo (-b.q).toNat : Nat) := by positivity
    have spelled : b.rational = if b.negative then
        -((b.m * twoTo b.q.toNat : Nat) / (twoTo (-b.q).toNat : Nat) : ℚ)
        else (b.m * twoTo b.q.toNat : Nat) / (twoTo (-b.q).toNat : Nat) := by
      rw [Binary.rational, Binary.signed]
      split
      · push_cast
        ring
      · push_cast
        rfl
    rw [spelled]
    split
    · rw [abs_neg, abs_of_nonneg magnitude]
    · rw [abs_of_nonneg magnitude]
  rw [Nat.cast_one, mul_one] at near
  rw [Binary.round, Binary.signed]
  split at sign
  · next negative =>
    rw [if_pos negative, sign, Int.cast_neg, Int.cast_natCast, sub_neg_eq_add, ← abs_neg, neg_add,
      neg_neg, ← sub_eq_add_neg]
    exact near
  · next positive =>
    rw [if_neg positive, sign, Int.cast_natCast]
    exact near

/-- The whole part of a double is a double. -/
theorem IsRational.floor_fits {x : Float} {p : ℚ} (value : IsRational x p) : FitsMantissa ⌊p⌋.natAbs := by
  by_cases whole : ∃ k : Int, p = k
  · obtain ⟨k, rfl⟩ := whole
    rw [Int.floor_intCast]
    exact value.fits
  · have nonzero : p ≠ 0 := fun zero => whole ⟨0, by rw [zero, Int.cast_zero]⟩
    obtain ⟨s, m, e, positive, -, short, -, -, -, spelled⟩ := value.unpack_of_ne_zero nonzero
    have low : e < 0 := by
      by_contra high
      obtain ⟨q, rfl⟩ := Int.eq_ofNat_of_zero_le (not_lt.mp high)
      exact whole ⟨s.apply 1 * (m * 2 ^ q : Nat), by rw [spelled, zpow_natCast]; push_cast; rfl⟩
    have small : |p| ≤ (m : Int) := by
      have power : (2 : ℚ) ^ e ≤ 1 := zpow_le_one_of_nonpos₀ (by norm_num) low.le
      rw [spelled, abs_signed s (by positivity), Int.cast_natCast]
      exact mul_le_of_le_one_right (Nat.cast_nonneg m) power
    obtain ⟨above, below⟩ := abs_le.mp small
    have least : -(m : Int) ≤ ⌊p⌋ := Int.le_floor.mpr (by rwa [Int.cast_neg])
    have most : ⌊p⌋ ≤ m := Int.cast_le.mp ((Int.floor_le p).trans below)
    exact ⟨⌊p⌋.natAbs, 0, by omega, by omega, (Nat.mul_one _).symm⟩

end Decimal

namespace Ratio

def rational (r : Ratio) : ℚ := r.num / r.den

def ofRational (q : ℚ) : Ratio := ⟨q.num, q.den⟩

/-- In lowest terms, with the sign above the line. -/
structure IsLowest (r : Ratio) : Prop where
  positive : 0 < r.den
  coprime : Int.gcd r.num r.den = 1

@[simp] theorem rational_ofRational (q : ℚ) : (ofRational q).rational = q := Rat.num_div_den q

theorem isLowest_ofRational (q : ℚ) : (ofRational q).IsLowest := by
  constructor
  · exact Int.natCast_pos.mpr q.den_pos
  · exact q.reduced

theorem make_eq (n : Int) {d : Int} (nonzero : d ≠ 0) : make? n d = some (ofRational (n / d)) := by
  have dvdn : (Int.gcd n d : Int) ∣ n := Int.gcd_dvd_left ..
  have dvdd : (Int.gcd n d : Int) ∣ d := Int.gcd_dvd_right ..
  have self : d.sign * d = (d.natAbs : Int) := Int.sign_mul_self ..
  have sign : (if d < 0 then -1 else 1 : Int) = d.sign := by
    split
    · next negative => exact (Int.sign_eq_neg_one_of_neg negative).symm
    · next positive => exact (Int.sign_eq_one_of_pos (by omega)).symm
  simp only [make?, ofRational, ← Rat.divInt_eq_div, Rat.num_divInt, Rat.den_divInt, nonzero, if_false, sign,
    Int.tdiv_eq_ediv_of_dvd dvdn, Int.tdiv_eq_ediv_of_dvd dvdd, Int.gcd_comm d n]
  rw [Int.mul_ediv_assoc _ dvdn, Int.natCast_ediv, ← self, Int.mul_ediv_assoc _ dvdd]

/-- The billionths of a double, counted to the nearest one or hardly beside it. -/
theorem split_eq {x : Float} {p : ℚ} (value : IsRational x p) : ∃ t : Int,
    |(t : ℚ) - p * 10 ^ 9| ≤ 1 / 2 + 1 / 10 ^ 6 ∧ split x ⌊p⌋ = (t / precision, t % precision) := by
  have low := Int.fract_nonneg p
  have high := Int.fract_lt_one p
  have top : (2 : ℚ) ^ (40 : Int) ≤ 2 ^ (1023 : Int) := zpow_le_zpow_right₀ (by norm_num) (by norm_num)
  have magnitude : |p - ⌊p⌋| ≤ 1 := by
    rw [Int.self_sub_floor, abs_of_nonneg low]
    exact high.le
  obtain ⟨r, rest, close⟩ := value.sub_near (Decimal.ofInt_integral value.floor_fits)
    (magnitude.trans (le_trans (by norm_num) top))
  have billion : IsRational 1e9 (10 ^ 9) := by decide +kernel
  have close : |r - (p - ⌊p⌋)| ≤ 2 / 2 ^ 52 := close.trans ((slack_le _).trans (by gcongr; linarith))
  have magnitude' : |r * 10 ^ 9| ≤ 2 * 10 ^ 9 := by
    rw [abs_mul, abs_of_nonneg (by norm_num : (0 : ℚ) ≤ 10 ^ 9)]
    have apart := abs_sub_abs_le_abs_sub r (p - ⌊p⌋)
    have tiny : (2 : ℚ) / 2 ^ 52 ≤ 1 := by norm_num
    gcongr
    linarith
  obtain ⟨v, product, near⟩ := rest.mul_near billion (magnitude'.trans (le_trans (by norm_num) top))
  have near : |v - r * 10 ^ 9| ≤ (2 * 10 ^ 9 + 1) / 2 ^ 52 := near.trans ((slack_le _).trans (by gcongr))
  obtain ⟨c, read, rfl⟩ := Option.map_eq_some_iff.mp product
  have rounded := c.round_near
  rw [Int.self_sub_floor] at close
  have fractional : p = ⌊p⌋ + Int.fract p := (Int.floor_add_fract p).symm
  have error : |c.rational - Int.fract p * 10 ^ 9| ≤ 1 / 10 ^ 6 := by
    rw [abs_le] at close near ⊢
    constructor <;> linarith
  have count : |(c.round : ℚ) - Int.fract p * 10 ^ 9| ≤ 1 / 2 + 1 / 10 ^ 6 := by
    rw [abs_le] at error rounded ⊢
    constructor <;> linarith
  have least : 0 ≤ c.round := by
    have : (-1 : ℚ) < c.round := by linarith [(abs_le.mp count).1]
    have : -1 < c.round := by exact_mod_cast this
    omega
  have most : c.round ≤ precision := by
    have : (c.round : ℚ) < (precision + 1 : Int) := by
      rw [precision]
      push_cast
      linarith [(abs_le.mp count).2]
    have : c.round < precision + 1 := by exact_mod_cast this
    omega
  refine ⟨⌊p⌋ * precision + c.round, ?_, ?_⟩
  · have split : ((⌊p⌋ * precision + c.round : Int) : ℚ) - p * 10 ^ 9 = c.round - Int.fract p * 10 ^ 9 := by
      rw [precision]
      nth_rewrite 2 [fractional]
      push_cast
      ring
    rwa [split]
  · -- a fractional part that is counted as a whole billion is carried
    simp only [Ratio.split, read, Option.map_some, Option.getD_some]
    rw [precision] at most ⊢
    split
    · simp only [Prod.mk.injEq]
      omega
    · simp only [Prod.mk.injEq]
      omega

/-- Parts over one billion are brought to lowest terms. -/
theorem reduced_eq (t : Int) : (⟨t / precision * precision.tdiv (Int.gcd (t % precision) precision) +
    (t % precision).tdiv (Int.gcd (t % precision) precision),
    precision.tdiv (Int.gcd (t % precision) precision)⟩ : Ratio) =
      ofRational (t / precision) := by
  have positive : (0 : Int) < precision := by decide
  have common : Int.gcd (t % precision) precision = Int.gcd precision t := by rw [Int.gcd_emod, Int.gcd_comm]
  have dvdp : (Int.gcd precision t : Int) ∣ precision := Int.gcd_dvd_left ..
  have dvdt : (Int.gcd precision t : Int) ∣ t := Int.gcd_dvd_right ..
  have dvdr : (Int.gcd precision t : Int) ∣ t % precision := (EuclideanDomain.dvd_mod_iff dvdp).mpr dvdt
  have whole : t / precision * (precision / Int.gcd precision t) + t % precision /
      Int.gcd precision t = t / Int.gcd precision t := by
    rw [← Int.mul_ediv_assoc _ dvdp, ← Int.add_ediv_of_dvd_left (dvdp.mul_left _), Int.ediv_mul_add_emod]
  rw [ofRational, ← Rat.divInt_eq_div, Rat.num_divInt, Rat.den_divInt, common, Int.tdiv_eq_ediv_of_dvd dvdp,
    Int.tdiv_eq_ediv_of_dvd dvdr, whole, if_neg positive.ne', Int.sign_eq_one_of_pos positive,
    Int.one_mul, Int.natCast_ediv,
    Int.natAbs_of_nonneg positive.le]

/-- A double is read as its billionths in lowest terms. -/
theorem ofFloat_eq {x : Float} {p : ℚ} (value : IsRational x p) : ∃ t : Int,
    |(t : ℚ) - p * 10 ^ 9| ≤ 1 / 2 + 1 / 10 ^ 6 ∧ split x ⌊p⌋ = (t / precision, t % precision) ∧
      ofFloat? x = if (t / precision).natAbs < tenTo 18 then some (ofRational (t / precision)) else none := by
  obtain ⟨t, near, parts⟩ := split_eq value
  obtain ⟨b, read, rfl⟩ := Option.map_eq_some_iff.mp value
  refine ⟨t, near, parts, ?_⟩
  simp only [ofFloat?, read, Option.bind_some, b.floor_eq, parts, reduced_eq]
  by_cases small : (t / precision).natAbs < tenTo 18
  · rw [if_neg (Nat.not_le_of_lt small), if_pos small]
  · rw [if_pos (Nat.le_of_not_lt small), if_neg small]

section Bounds

variable {m n : Int} {bound : Nat}

theorem natAbs_gcd_le (first : m.natAbs ≤ bound) (second : n.natAbs ≤ bound) :
    (Int.gcd m n : Int).natAbs ≤ bound := by
  rw [Int.natAbs_natCast]
  by_cases zero : m.natAbs = 0
  · rwa [Int.gcd, zero, Nat.gcd_zero_left]
  · exact (Nat.gcd_le_left _ (Nat.pos_of_ne_zero zero)).trans first

theorem natAbs_tdiv_le (small : m.natAbs ≤ bound) (n : Int) : (m.tdiv n).natAbs ≤ bound :=
  (Int.natAbs_tdiv_le_natAbs m n).trans small

theorem natAbs_mul_le {other : Nat} (first : m.natAbs ≤ bound) (second : n.natAbs ≤ other) :
    (m * n).natAbs ≤ bound * other := by
  rw [Int.natAbs_mul]
  exact Nat.mul_le_mul first second

end Bounds

/-- The double is closer to the number than half a billionth, by more than reading it may miss. -/
def IsBeside (x : Float) (r : ℚ) : Prop := ∃ p, IsRational x p ∧ |p - r| * 10 ^ 9 < 1 / 2 - 1 / 10 ^ 6

/-- A double close enough to a number of billionths is read as that number. -/
theorem ofFloat_of_isBeside {x : Float} {r : ℚ} (beside : IsBeside x r) (divides : (r.den : Int) ∣ precision)
    (small : r.num.natAbs < 10 ^ 17) : ofFloat? x = some (ofRational r) := by
  obtain ⟨p, value, near⟩ := beside
  obtain ⟨t, count, -, result⟩ := ofFloat_eq value
  obtain ⟨k, parts⟩ := divides
  have den : (r.den : ℚ) ≠ 0 := by exact_mod_cast r.den_nz
  have billion : (10 ^ 9 : ℚ) = r.den * k := by
    rw [show (10 ^ 9 : ℚ) = (precision : Int) by norm_num [precision], parts]
    push_cast
    rfl
  have counted : r * 10 ^ 9 = (r.num * k : Int) := by
    nth_rewrite 1 [← Rat.num_div_den r]
    rw [billion]
    push_cast
    field_simp
  have same : t = r.num * k := by
    have apart : |(t : ℚ) - (r.num * k : Int)| < 1 := by
      rw [← counted]
      have near : |(p - r) * 10 ^ 9| < 1 / 2 - 1 / 10 ^ 6 := by
        rwa [abs_mul, abs_of_pos (by norm_num : (0 : ℚ) < 10 ^ 9)]
      rw [sub_mul, abs_lt] at near
      rw [abs_lt]
      rw [abs_le] at count
      constructor <;> linarith
    have apart : |t - r.num * k| < 1 := by exact_mod_cast apart
    have := Int.abs_lt_one_iff.mp apart
    omega
  have value : (t : ℚ) / precision = r := by
    rw [same, ← counted, precision, div_eq_iff (by norm_num)]
    push_cast
    norm_num
  have few : (t / precision).natAbs < tenTo 18 := by
    have limit : tenTo 18 = 10 ^ 18 := rfl
    have least : 0 < r.den := r.den_pos
    have most : k.natAbs ≤ 10 ^ 9 := by
      have product := congrArg Int.natAbs parts
      rw [Int.natAbs_mul, Int.natAbs_natCast] at product
      have : precision.natAbs = 10 ^ 9 := rfl
      rw [← this, product]
      exact Nat.le_mul_of_pos_left _ least
    have bound : t.natAbs ≤ 10 ^ 17 * 10 ^ 9 := by
      rw [same]
      exact natAbs_mul_le small.le most
    rw [precision]
    omega
  rw [result, if_pos few, value]

/-- The integers formed when a double with this whole part is read. -/
def formed (x : Float) (whole : Int) : List Int :=
  let (carried, part) := split x whole
  let divisor : Int := Int.gcd part precision
  let den := precision.tdiv divisor
  [whole, precision, carried, part, divisor, part.tdiv divisor, den, carried * den,
    carried * den + part.tdiv divisor]

def crossed (a b : Ratio) : List Int :=
  let num := a.num * b.den
  let den := a.den * b.num
  let divisor : Int := Int.gcd num den
  [num, den, divisor, num.tdiv divisor, den.tdiv divisor, -num.tdiv divisor, -den.tdiv divisor]

structure IsRead (r : Ratio) : Prop where
  lowest : r.IsLowest
  divides : r.den ∣ precision
  small : r.num.natAbs ≤ 10 ^ 27

theorem fits_of_lt {n : Int} (small : n.natAbs < 2 ^ 127) : fits n := by
  have power : (twoTo 127 : Int) = 2 ^ 127 := rfl
  simp only [fits, power, Bool.and_eq_true, decide_eq_true_eq]
  omega

theorem fits_of_le {n : Int} {bound : Nat} (small : n.natAbs ≤ bound) (less : bound < 2 ^ 127) : fits n :=
  fits_of_lt (small.trans_lt less)

theorem IsRead.den_le {r : Ratio} (read : r.IsRead) : r.den ≤ precision :=
  Int.le_of_dvd (by decide) read.divides

theorem isRead_ofRational {t : Int} (small : (t / precision).natAbs < tenTo 18) :
    (ofRational (t / precision)).IsRead := by
  have nonzero : precision ≠ 0 := by decide
  have bounded : t.natAbs ≤ 10 ^ 27 := by
    have limit : tenTo 18 = 10 ^ 18 := rfl
    rw [limit, precision] at small
    omega
  refine ⟨isLowest_ofRational _, ?_, ?_⟩
  · rw [ofRational, ← Rat.divInt_eq_div]
    exact Rat.den_dvd t precision
  · rw [ofRational, ← Rat.divInt_eq_div]
    by_cases none : t = 0
    · simp [none]
    · exact (Nat.le_of_dvd (Int.natAbs_pos.mpr none)
        (Int.natAbs_dvd_natAbs.mpr (Rat.num_dvd t nonzero))).trans bounded

/-- What is read, and the count of billionths that it comes from. -/
theorem exists_billionths {x : Float} {p : ℚ} {a : Ratio} (value : IsRational x p)
    (read : ofFloat? x = some a) : ∃ t : Int,
    |(t : ℚ) - p * 10 ^ 9| ≤ 1 / 2 + 1 / 10 ^ 6 ∧ split x ⌊p⌋ = (t / precision, t % precision) ∧
      (t / precision).natAbs < tenTo 18 ∧ a = ofRational (t / precision) := by
  obtain ⟨t, near, parts, result⟩ := ofFloat_eq value
  rw [read] at result
  split at result
  · next small => exact ⟨t, near, parts, small, Option.some.inj result⟩
  · cases result

theorem isRead_of_ofFloat {x : Float} {p : ℚ} {a : Ratio} (value : IsRational x p)
    (read : ofFloat? x = some a) : a.IsRead := by
  obtain ⟨t, -, -, small, rfl⟩ := exists_billionths value read
  exact isRead_ofRational small

theorem isFinite_of_ofFloat {x : Float} {a : Ratio} (read : ofFloat? x = some a) : Decimal.isFinite x := by
  obtain ⟨b, binary, -⟩ := Option.bind_eq_some_iff.mp read
  exact Option.isSome_iff_exists.mpr ⟨b, binary⟩

theorem split_carries (x : Float) (whole : Int) :
    (split x whole).1 = whole ∨ (split x whole).1 = whole + 1 := by
  simp only [Ratio.split]
  split
  · exact .inr rfl
  · exact .inl rfl

theorem formed_fits {x : Float} {p : ℚ} {a : Ratio} (value : IsRational x p) (read : ofFloat? x = some a) :
    ∀ n ∈ formed x ⌊p⌋, fits n := by
  obtain ⟨t, -, parts, small, -⟩ := exists_billionths value read
  have small : (t / precision).natAbs ≤ 10 ^ 18 := small.le
  have carries := split_carries x ⌊p⌋
  rw [parts] at carries
  have floor : ⌊p⌋.natAbs ≤ 10 ^ 18 + 1 := by omega
  have part : (t % precision).natAbs ≤ 10 ^ 9 := by
    rw [precision]
    omega
  have unit : precision.natAbs ≤ 10 ^ 9 := by decide
  have top := natAbs_mul_le small (natAbs_tdiv_le unit (Int.gcd (t % precision) precision))
  have sum := (Int.natAbs_add_le _ ((t % precision).tdiv (Int.gcd (t % precision) precision))).trans
    (Nat.add_le_add_right top _)
  have rest := natAbs_tdiv_le part (Int.gcd (t % precision) precision)
  simp only [formed, parts, List.forall_mem_cons, List.not_mem_nil, false_imp_iff, implies_true, and_true]
  exact ⟨fits_of_le floor (by decide), by decide, fits_of_le small (by decide), fits_of_le part (by decide),
    fits_of_le (natAbs_gcd_le part unit) (by decide), fits_of_le (natAbs_tdiv_le part _) (by decide),
    fits_of_le (natAbs_tdiv_le unit _) (by decide), fits_of_le top (by decide),
    fits_of_le (sum.trans (Nat.add_le_add_left rest _)) (by decide)⟩

theorem crossed_fits {a b : Ratio} (first : a.IsRead) (second : b.IsRead) : ∀ n ∈ crossed a b, fits n := by
  have limit : precision = 10 ^ 9 := rfl
  have den {r : Ratio} (read : r.IsRead) : r.den.natAbs ≤ 10 ^ 9 := by
    have positive := read.lowest.positive
    have most := read.den_le
    omega
  have top := natAbs_mul_le first.small (den second)
  have bottom : (a.den * b.num).natAbs ≤ 10 ^ 27 * 10 ^ 9 :=
    Int.mul_comm .. ▸ natAbs_mul_le second.small (den first)
  simp only [crossed, List.forall_mem_cons, List.not_mem_nil, false_imp_iff, implies_true, and_true]
  exact ⟨fits_of_le top (by decide),
    fits_of_le bottom (by decide), fits_of_le (natAbs_gcd_le top bottom) (by decide),
    fits_of_le (natAbs_tdiv_le top _) (by decide), fits_of_le (natAbs_tdiv_le bottom _) (by decide),
    fits_of_le ((Int.natAbs_neg _).trans_le (natAbs_tdiv_le top _)) (by decide),
    fits_of_le ((Int.natAbs_neg _).trans_le (natAbs_tdiv_le bottom _)) (by decide)⟩

/-- Ratios that were read are divided exactly. -/
theorem div_read {a b : Ratio} (first : a.IsRead) (second : b.IsRead) :
    a.div? b = if b.num = 0 then none else some (ofRational (a.rational / b.rational)) := by
  have formed := crossed_fits first second
  simp only [crossed, List.forall_mem_cons] at formed
  obtain ⟨top, bottom, -⟩ := formed
  have both : (fits (a.num * b.den) && fits (a.den * b.num)) = true := by rw [top, bottom]; rfl
  simp only [div?, both, if_true]
  split
  · next zero => simp [make?, zero]
  · next nonzero =>
    have productNonzero : a.den * b.num ≠ 0 := mul_ne_zero first.lowest.positive.ne' nonzero
    rw [make_eq _ productNonzero, rational, rational, div_div_div_eq]
    push_cast
    rfl

theorem rational_eq_zero {r : Ratio} (lowest : r.IsLowest) : r.rational = 0 ↔ r.num = 0 := by
  have divisor : (r.den : ℚ) ≠ 0 := by exact_mod_cast lowest.positive.ne'
  rw [rational, div_eq_zero_iff, or_iff_left divisor, Int.cast_eq_zero]

/-- A ratio that is read from a double is in lowest terms over a divisor of one billion. Two of them
are divided exactly, unless the divisor is zero. Every integer formed on the way has 128 bits. -/
theorem exact_of_ofFloat {x y : Float} {a b : Ratio} (first : ofFloat? x = some a)
    (second : ofFloat? y = some b) :
    (a.IsLowest ∧ a.den ≤ precision ∧ a.den ∣ precision ∧
      ∃ c, Binary.ofFloat? x = some c ∧ ∀ n ∈ formed x c.floor, fits n) ∧
    (∀ n ∈ crossed a b, fits n) ∧
    (b.rational = 0 → a.div? b = none) ∧
    (b.rational ≠ 0 → ∃ r, a.div? b = some r ∧ r.IsLowest ∧ r.rational = a.rational / b.rational) := by
  obtain ⟨p, value⟩ := Decimal.isRational_of_isFinite (isFinite_of_ofFloat first)
  obtain ⟨q, value'⟩ := Decimal.isRational_of_isFinite (isFinite_of_ofFloat second)
  have read := isRead_of_ofFloat value first
  have read' := isRead_of_ofFloat value' second
  have divided := div_read read read'
  refine ⟨⟨read.lowest, read.den_le, read.divides, ?_⟩, crossed_fits read read', fun zero => ?_,
    fun nonzero => ?_⟩
  · have all := formed_fits value first
    obtain ⟨c, binary, rfl⟩ := Option.map_eq_some_iff.mp value
    exact ⟨c, binary, c.floor_eq ▸ all⟩
  · rw [divided, if_pos ((rational_eq_zero read'.lowest).mp zero)]
  · rw [divided, if_neg (mt (rational_eq_zero read'.lowest).mpr nonzero)]
    exact ⟨_, rfl, isLowest_ofRational _, rational_ofRational _⟩

theorem exact_of_half : ofFloat? (-0.5) = some ⟨-1, 2⟩ ∧ ofFloat? 0.75 = some ⟨3, 4⟩ ∧
    ∃ r, div? ⟨-1, 2⟩ ⟨3, 4⟩ = some r ∧ r.IsLowest ∧ r.rational = -2 / 3 := by
  have first : ofFloat? (-0.5) = some ⟨-1, 2⟩ := by decide +kernel
  have second : ofFloat? 0.75 = some ⟨3, 4⟩ := by decide +kernel
  obtain ⟨-, -, -, quotient⟩ := exact_of_ofFloat first second
  obtain ⟨r, divided, lowest, value⟩ := quotient (by norm_num [rational])
  exact ⟨first, second, r, divided, lowest, by rw [value]; norm_num [rational]⟩

end Ratio

end Stepwise
