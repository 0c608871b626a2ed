import Stepwise.Proofs.Quantity.Polynomial

/-! The text of a polynomial with whole coefficients. Main statement: the terms other than zero are
written one behind the other, the highest power first. -/
section

open Polynomial (C X)
open scoped Polynomial

namespace Stepwise

open Decimal (IsWhole)

theorem Decimal.IsWhole.abs {x : Float} {a : Int} (isWhole : IsWhole x a) : IsWhole x.abs a.natAbs := by
  obtain ⟨s, m, small, rfl, rfl⟩ := isWhole
  have magnitude : (whole s m).abs = whole .positive m := by
    change Float.ofModel (.pack (whole s m).toModel.unpack.abs) = _
    rw [unpack_whole s small, whole]
    unfold canonical
    split <;> rfl
  refine ⟨.positive, m, small, magnitude, ?_⟩
  rw [natAbs_apply]
  rfl

theorem isEmpty_append {first second : String} (nonempty : first.isEmpty = false) :
    (first ++ second).isEmpty = false := by
  rw [Bool.eq_false_iff, Ne, String.isEmpty_iff] at nonempty ⊢
  exact fun empty => nonempty (String.append_eq_empty_iff.mp empty).1

structure Term where
  coefficient : Int
  power : Nat
deriving DecidableEq, Repr

namespace Term

/-- The term without its sign. A coefficient of one is left out in front of the letter, and so is an
exponent of one. -/
def magnitudeText (v : Char) (t : Term) : String :=
  if t.power = 0 then toString t.coefficient.natAbs
  else
    (if t.coefficient.natAbs = 1 then "" else toString t.coefficient.natAbs) ++ v.toString ++
      (if t.power = 1 then "" else "^" ++ toString t.power)

def leadingText (v : Char) (t : Term) : String := (if t.coefficient < 0 then "-" else "") ++ t.magnitudeText v

def signedText (v : Char) (t : Term) : String := (if t.coefficient < 0 then "-" else "+") ++ t.magnitudeText v

def sumText (v : Char) : List Term → String
  | [] => "0"
  | first :: rest => rest.foldl (fun text t => text ++ t.signedText v) (first.leadingText v)

example : sumText 'x' [⟨-2, 3⟩, ⟨1, 1⟩, ⟨-3, 0⟩] = "-2x^3+x-3" := by decide +kernel

variable {v : Char}

theorem sumText_append {ts : List Term} (nonempty : ts ≠ []) (t : Term) :
    sumText v (ts ++ [t]) = sumText v ts ++ t.signedText v := by
  cases ts with
  | nil => exact absurd rfl nonempty
  | cons first rest =>
    simp only [List.cons_append, sumText, List.foldl_append, List.foldl_cons, List.foldl_nil]

theorem leadingText_ne_empty (t : Term) : (t.leadingText v).isEmpty = false := by
  have magnitude : t.magnitudeText v ≠ "" := by
    unfold magnitudeText
    split
    · exact fun empty => Nat.toDigits_ne_nil (Nat.toList_repr.symm.trans (congrArg String.toList empty))
    · simp [Char.toString]
  simp [leadingText, magnitude]

theorem sumText_ne_empty (ts : List Term) : (sumText v ts).isEmpty = false := by
  induction ts using List.reverseRecOn with
  | nil => rfl
  | append_singleton ts t ih =>
    by_cases none : ts = []
    · subst none
      exact leadingText_ne_empty t
    · rw [sumText_append none]
      exact isEmpty_append ih

noncomputable def sum (ts : List Term) : ℤ[X] := (ts.map fun t => C t.coefficient * X ^ t.power).sum

structure Descending (ts : List Term) : Prop where
  nonzero : ∀ t ∈ ts, t.coefficient ≠ 0
  powers : ts.Pairwise fun s t => t.power < s.power

end Term

noncomputable def termsBelow (f : ℤ[X]) : Nat → List Term
  | 0 => []
  | n + 1 => if f.coeff n = 0 then termsBelow f n else ⟨f.coeff n, n⟩ :: termsBelow f n

/-- The terms of `f` that are not zero, the highest power first. -/
noncomputable def terms (f : ℤ[X]) : List Term := termsBelow f (f.natDegree + 1)

section
variable {f : ℤ[X]} {n : Nat}

theorem mem_termsBelow {t : Term} :
    t ∈ termsBelow f n ↔ t.power < n ∧ t.coefficient = f.coeff t.power ∧ t.coefficient ≠ 0 := by
  induction n with
  | zero => simp [termsBelow]
  | succ n ih =>
    rw [termsBelow]
    split
    · next zero =>
      rw [ih]
      refine ⟨fun ⟨below, rest⟩ => ⟨Nat.lt_succ_of_lt below, rest⟩, fun ⟨below, same, nonzero⟩ =>
        ⟨?_, same, nonzero⟩⟩
      have other : t.power ≠ n := by
        rintro rfl
        exact nonzero (same.trans zero)
      omega
    · next nonzero =>
      rw [List.mem_cons, ih]
      constructor
      · rintro (rfl | ⟨below, rest⟩)
        · exact ⟨Nat.lt_succ_self n, rfl, nonzero⟩
        · exact ⟨Nat.lt_succ_of_lt below, rest⟩
      · rintro ⟨below, same, other⟩
        by_cases top : t.power = n
        · left
          obtain ⟨c, k⟩ := t
          obtain rfl : k = n := top
          rw [show c = f.coeff k from same]
        · exact .inr ⟨by omega, same, other⟩

theorem mem_terms {t : Term} : t ∈ terms f ↔ t.coefficient = f.coeff t.power ∧ t.coefficient ≠ 0 := by
  rw [terms, mem_termsBelow]
  refine ⟨And.right, fun ⟨same, nonzero⟩ => ⟨?_, same, nonzero⟩⟩
  exact Nat.lt_succ_of_le (Polynomial.le_natDegree_of_ne_zero (same ▸ nonzero))

theorem termsBelow_powers : (termsBelow f n).Pairwise fun s t => t.power < s.power := by
  induction n with
  | zero => exact .nil
  | succ n ih =>
    rw [termsBelow]
    split
    · exact ih
    · exact .cons (fun t member => (mem_termsBelow.mp member).1) ih

theorem terms_descending (f : ℤ[X]) : Term.Descending (terms f) :=
  ⟨fun _ member => (mem_terms.mp member).2, termsBelow_powers⟩

/-- The terms make up the polynomial. -/
theorem sum_terms (f : ℤ[X]) : Term.sum (terms f) = f := by
  have below (n : Nat) : Term.sum (termsBelow f n) = ∑ i ∈ Finset.range n, C (f.coeff i) * X ^ i := by
    induction n with
    | zero => rfl
    | succ n ih =>
      rw [termsBelow, Finset.sum_range_succ, ← ih]
      split
      · next zero => rw [zero, Polynomial.C_0, zero_mul, add_zero]
      · rw [Term.sum, List.map_cons, List.sum_cons, add_comm]
        rfl
  rw [terms, below, ← Polynomial.as_sum_range_C_mul_X_pow]

end

namespace Term.Descending

variable {ts : List Term}

theorem tail {t : Term} (descending : Descending (t :: ts)) : Descending ts :=
  ⟨fun s member => descending.nonzero s (List.mem_cons_of_mem _ member), descending.powers.of_cons⟩

/-- The coefficients of a sum are those of its terms. -/
theorem coeff_sum (descending : Descending ts) (n : Nat) :
    (∀ t ∈ ts, t.power = n → (Term.sum ts).coeff n = t.coefficient) ∧
    ((∀ t ∈ ts, t.power ≠ n) → (Term.sum ts).coeff n = 0) := by
  induction ts with
  | nil => exact ⟨fun _ member => absurd member List.not_mem_nil, fun _ => Polynomial.coeff_zero n⟩
  | cons first rest ih =>
    obtain ⟨found, none⟩ := ih descending.tail
    have coeffCons : (Term.sum (first :: rest)).coeff n =
        (if n = first.power then first.coefficient else 0) + (Term.sum rest).coeff n := by
      rw [Term.sum, List.map_cons, List.sum_cons, Polynomial.coeff_add, Polynomial.coeff_C_mul_X_pow]
      rfl
    have below {t : Term} : t ∈ rest → t.power < first.power := List.rel_of_pairwise_cons descending.powers
    rw [coeffCons]
    constructor
    · intro t member here
      rcases List.mem_cons.mp member with rfl | member
      · rw [if_pos here.symm, none fun s member => Nat.ne_of_lt (here ▸ below member), add_zero]
      · rw [if_neg (by have := below member; omega), found t member here, zero_add]
    · intro others
      obtain ⟨other, others⟩ := List.forall_mem_cons.mp others
      rw [if_neg (Ne.symm other), none others, zero_add]

/-- Terms in order are those of their sum. -/
theorem terms_sum (descending : Descending ts) : terms (Term.sum ts) = ts := by
  have distinct {us : List Term} (ordered : Descending us) : us.Nodup :=
    ordered.powers.imp fun below same => Nat.ne_of_lt below (congrArg Term.power same).symm
  have same : (terms (Term.sum ts)).Perm ts := by
    refine (List.perm_ext_iff_of_nodup (distinct (terms_descending _)) (distinct descending)).mpr fun t => ?_
    rw [mem_terms]
    refine ⟨fun ⟨value, nonzero⟩ => ?_, fun member =>
      ⟨((descending.coeff_sum t.power).1 t member rfl).symm, descending.nonzero t member⟩⟩
    by_contra outside
    have missing : ¬ ∀ s ∈ ts, s.power ≠ t.power :=
      fun none => nonzero (value.trans ((descending.coeff_sum t.power).2 none))
    push Not at missing
    obtain ⟨s, member, here⟩ := missing
    have coefficient := (descending.coeff_sum t.power).1 s member here
    obtain ⟨c, k⟩ := s
    obtain ⟨d, m⟩ := t
    obtain rfl : k = m := here
    obtain rfl : d = c := value.trans coefficient
    exact outside member
  exact same.eq_of_pairwise (fun s t _ _ below above => absurd below (Nat.lt_asymm above))
    (terms_descending _).powers descending.powers

end Term.Descending

namespace Polynomial

variable {p : Polynomial} {f : ℤ[X]}

theorem termText_whole {x : Float} {a : Int} (whole : IsWhole x a) (v : Char) (n : Nat) :
    termText v n x.abs = Term.magnitudeText v ⟨a, n⟩ := by
  have unit : (x.abs == 1.0) = decide (a.natAbs = 1) := by
    rw [whole.abs.beq_one, Bool.eq_iff_iff, beq_iff_eq, decide_eq_true_iff]
    omega
  have digits : Decimal.sixPlaces x.abs = toString a.natAbs := whole.abs.sixPlaces
  unfold termText Term.magnitudeText
  simp only [unit, digits, decide_eq_true_eq]
  rfl

/-- Behind a text the terms follow with their signs. -/
theorem textBelow_spells (spells : p.Spells f) (n : Nat) (text : String) (nonempty : text.isEmpty = false) :
    p.textBelow n text = (termsBelow f n).foldl (fun text t => text ++ t.signedText p.letter) text := by
  induction n generalizing text with
  | zero => rfl
  | succ n ih =>
    have whole := spells.whole n
    rw [textBelow, termsBelow]
    simp only [whole.beq_zero, beq_iff_eq, whole.lt_zero, nonempty, Bool.false_eq_true, if_false,
      termText_whole whole]
    split
    · exact ih text nonempty
    · rw [List.foldl_cons, String.append_assoc]
      exact ih _ (isEmpty_append nonempty)

/-- A polynomial is written as the sum of its terms. -/
theorem text_spells (spells : p.Spells f) : p.text = Term.sumText p.letter (terms f) := by
  have below (n : Nat) :
      p.textBelow n "" = if termsBelow f n = [] then ""
        else Term.sumText p.letter (termsBelow f n) := by
    induction n with
    | zero => rfl
    | succ n ih =>
      have whole := spells.whole n
      rw [textBelow, termsBelow]
      simp only [whole.beq_zero, beq_iff_eq, whole.lt_zero, termText_whole whole,
        show "".isEmpty = true from rfl, if_true]
      split
      · exact ih
      · have first := Term.leadingText_ne_empty (v := p.letter) ⟨f.coeff n, n⟩
        rw [String.empty_append, if_neg (List.cons_ne_nil _ _)]
        exact textBelow_spells spells n _ first
  unfold Polynomial.text
  rw [spells.size, below, terms]
  cases termsBelow f (f.natDegree + 1) with
  | nil => rfl
  | cons first rest =>
    simp only [if_neg (List.cons_ne_nil first rest), Term.sumText_ne_empty,
      Bool.false_eq_true, if_false]

end Polynomial

theorem sumText_constant (v : Char) (n : Int) : Term.sumText v (terms (C n)) = toString n := by
  rw [terms, Polynomial.natDegree_C, termsBelow, termsBelow, Polynomial.coeff_C_zero]
  split
  · next zero => rw [zero]; rfl
  · rw [Decimal.toString_int]
    simp only [Term.sumText, Term.leadingText, Term.magnitudeText, List.foldl_nil, if_true]
    split
    · rfl
    · exact String.empty_append

/-- A quantity that expands is written as the sum of its terms. -/
theorem Quantity.Expands.text {v : Char} {q : Quantity} {f : ℤ[X]} (expands : q.Expands v f) :
    q.text = Term.sumText v (terms f) := by
  cases expands with
  | whole value flat => rw [flat, text_whole value, sumText_constant]
  | proper letter spells positive => exact letter ▸ Polynomial.text_spells spells

end Stepwise

end
