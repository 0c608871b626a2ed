import Stepwise.Proofs.Decimal.Nearest

/-! Quotients that are doubles themselves. Main statement: such a quotient is found without rounding. -/
namespace Stepwise.Decimal

open Float.Model UnpackedFloat

/-- A mantissa that fits is kept by rounding, whatever zeros are behind it. -/
theorem roundWithAccuracy_kept (s : Sign) {k : Nat} {e g : Int}
    (positive : 0 < k) (short : k < 2 ^ 53) (least : -1074 ≤ g) (above : e ≤ g)
    (fine : e ≤ place (k * 2 ^ (g - e).toNat) e) :
    Canonical (roundWithAccuracy Format.binary64 s (k * 2 ^ (g - e).toNat) e .exact) ∧
      dyadic? (roundWithAccuracy Format.binary64 s (k * 2 ^ (g - e).toNat) e .exact) =
        some ((s.apply 1 : Int) * (k * 2 ^ g) : ℚ) := by
  have bits : k.log2 < 53 := log2_lt_of_lt positive short
  obtain ⟨r, -, -, kept, canonical, value⟩ := roundWithAccuracy_value s .exact fine
  have low : place (k * 2 ^ (g - e).toNat) e ≤ g := by
    unfold place
    rw [log2_mul_pow positive]
    omega
  generalize place (k * 2 ^ (g - e).toNat) e = p at *
  have split : (2 : Nat) ^ (g - e).toNat = 2 ^ (g - p).toNat * 2 ^ (p - e).toNat := by
    rw [← Nat.pow_add]
    congr 1
    omega
  have mantissa : k * 2 ^ (g - e).toNat / 2 ^ (p - e).toNat = k * 2 ^ (g - p).toNat := by
    rw [split, ← Nat.mul_assoc, Nat.mul_div_cancel _ (Nat.two_pow_pos _)]
  have same := kept rfl ⟨k * 2 ^ (g - p).toNat, by rw [split]; ring⟩
  refine ⟨canonical, value.trans (congrArg some ?_)⟩
  have power : (2 : ℚ) ^ g = 2 ^ (g - p).toNat * 2 ^ p := by
    rw [← zpow_natCast, ← zpow_add₀ (by norm_num)]
    congr 1
    omega
  rw [same, mantissa, apply_eq, power]
  push_cast
  ring

/-- A quotient of two mantissas that is one itself leaves no remainder. -/
theorem div_mantissa {m n k : Nat} {e f g : Int} (positive : 0 < m) (positive' : 0 < n) (short : k < 2 ^ 53)
    (least : -1074 ≤ g)
    (same : ((m * 2 ^ (e - f - divTarget m e n f).toNat : Nat) : ℚ) / n * 2 ^ divTarget m e n f = k * 2 ^ g) :
    divTarget m e n f ≤ g ∧
      m * 2 ^ (e - f - divTarget m e n f).toNat = n * (k * 2 ^ (g - divTarget m e n f).toNat) := by
  have divisor : (0 : ℚ) < n := by exact_mod_cast positive'
  have low : divTarget m e n f ≤ g := by
    by_contra high
    have full : (2 ^ 52 : ℚ) * n ≤ (m * 2 ^ (e - f - divTarget m e n f).toNat : Nat) := by
      exact_mod_cast divTarget_full positive (by omega)
    refine absurd same (ne_of_gt ?_)
    calc (k : ℚ) * 2 ^ g < 2 ^ 53 * 2 ^ g := by gcongr; exact_mod_cast short
      _ = 2 ^ 52 * 2 ^ (g + 1) := by rw [zpow_add_one₀ (by norm_num)]; ring
      _ ≤ ((m * 2 ^ (e - f - divTarget m e n f).toNat : Nat) : ℚ) / n * 2 ^ divTarget m e n f := by
        gcongr
        · rwa [le_div_iff₀ divisor]
        · norm_num
        · omega
  refine ⟨low, ?_⟩
  generalize (e - f - divTarget m e n f).toNat = amount at same ⊢
  generalize divTarget m e n f = target at same low ⊢
  have power : (2 : ℚ) ^ g = 2 ^ (g - target).toNat * 2 ^ target := by
    rw [← zpow_natCast, ← zpow_add₀ (by norm_num)]
    congr 1
    omega
  have nonzero : (2 : ℚ) ^ target ≠ 0 := by positivity
  rw [power, ← mul_assoc, mul_left_inj' nonzero, div_eq_iff divisor.ne'] at same
  rw [Nat.mul_comm n]
  exact_mod_cast same

namespace IsRational

variable {x y z : Float} {p q : ℚ}

/-- A quotient that some double is, is found. -/
theorem exact_div (left : IsRational x p) (right : IsRational y q) (nonzero : q ≠ 0)
    (there : IsRational z (p / q)) :
    IsRational (x / y) (p / q) := by
  by_cases zero : p = 0
  · subst zero
    simpa using left.zero_div right nonzero
  have quotientNonzero : p / q ≠ 0 := div_ne_zero zero nonzero
  obtain ⟨s, m, e, positive, unpacked, -, -, -, -, rfl⟩ := left.unpack_of_ne_zero zero
  obtain ⟨t, n, f, positive', unpacked', -, -, -, -, rfl⟩ := right.unpack_of_ne_zero nonzero
  obtain ⟨u, k, g, positive'', -, short, least, high, -, spelled⟩ := there.unpack_of_ne_zero quotientNonzero
  rw [spelled_div s t positive'] at spelled ⊢
  have same : ((m * 2 ^ (e - f - divTarget m e n f).toNat : Nat) : ℚ) / n * 2 ^ divTarget m e n f =
      k * 2 ^ g := by
    have magnitude := congrArg (fun t => |t|) spelled
    simpa only [abs_signed _ (show (0 : ℚ) ≤ (k : ℚ) * 2 ^ g by positivity), abs_signed _ (show (0 : ℚ) ≤
      ((m * 2 ^ (e - f - divTarget m e n f).toNat : Nat) : ℚ) / n * 2 ^ divTarget m e n f by
      positivity)] using magnitude
  obtain ⟨low, mantissa⟩ := div_mantissa positive positive' short least same
  have quotient : x / y = .ofModel (.pack (roundWithAccuracy Format.binary64 (s / t)
      (k * 2 ^ (g - divTarget m e n f).toNat) (divTarget m e n f) .exact)) := by
    change Float.ofModel (.pack (UnpackedFloat.div Format.binary64 x.toModel.unpack y.toModel.unpack)) = _
    rw [unpacked, unpacked']
    simp only [UnpackedFloat.div, divCore_eq, mantissa, Nat.mul_div_cancel_left _ positive',
      Nat.mul_mod_right]
    rfl
  have fine := divTarget_le_place positive positive' e f
  rw [mantissa, Nat.mul_div_cancel_left _ positive'] at fine
  obtain ⟨canonical, value⟩ := roundWithAccuracy_kept (s / t) positive'' short least low fine
  rw [same, quotient]
  refine .pack (canonical.regular_of_lt value ?_) value
  rw [abs_signed _ (by positivity)]
  calc (k : ℚ) * 2 ^ g < 2 ^ (53 : Int) * 2 ^ g := by gcongr; exact_mod_cast short
    _ ≤ 2 ^ (53 : Int) * 2 ^ (971 : Int) := by gcongr; norm_num
    _ = 2 ^ (1024 : Int) := (zpow_add₀ (by norm_num) 53 971).symm

end IsRational

end Stepwise.Decimal
