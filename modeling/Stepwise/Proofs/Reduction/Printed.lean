import Stepwise.Proofs.Decimal.Value
import Stepwise.Proofs.Phrase.Sum
import Stepwise.Proofs.Reduction.Expanded
import Stepwise.Proofs.Tree.Shape

/-! Polynomials that are written are read back. Main statement: evaluating the text of a polynomial
leaves the polynomial, and the text never changes on the way. -/
section

open Polynomial (C X)
open scoped Polynomial

namespace Stepwise

open Decimal (IsWhole)

/-- Whole numbers are compared by value. -/
theorem Decimal.IsWhole.beq {x y : Float} {a b : Int} (left : IsWhole x a) (right : IsWhole y b) :
    (x == y) = decide (a = b) := by
  have rational {x : Float} {a : Int} (whole : IsWhole x a) : IsRational x a := by
    obtain ⟨c, read, denotes⟩ := whole.binary
    have nonzero : (twoTo (-c.q).toNat : ℚ) ≠ 0 := by exact_mod_cast (twoTo_pos _).ne'
    rw [IsRational, rational?, read, Option.map_some, Binary.rational, denotes.magnitude, denotes.signed]
    push_cast
    rw [mul_div_cancel_right₀ _ nonzero]
  rw [(rational left).beq (rational right)]
  simp

namespace Term

variable {t : Term} {ts : List Term}

def magnitude (t : Term) : Term := ⟨t.coefficient.natAbs, t.power⟩

theorem sum_singleton (t : Term) : sum [t] = C t.coefficient * X ^ t.power := by
  rw [sum, List.map_singleton, List.sum_singleton]

theorem sum_append (ts : List Term) (t : Term) :
    sum (ts ++ [t]) = sum ts + C t.coefficient * X ^ t.power := by
  simp [sum]

/-- The operator in front of a term adds the term. -/
theorem sum_sign (t : Term) (f : ℤ[X]) : ∃ operation, Operation.ofKind? t.sign = some operation ∧
    operation.expand f (sum [t.magnitude]) = f + C t.coefficient * X ^ t.power ∧
      operation.Expandable (sum [t.magnitude]) ∧
      ((∀ i, Exact ((f + C t.coefficient * X ^ t.power).coeff i)) →
      operation.IsExact f (sum [t.magnitude])) := by
  unfold sign
  split
  · next negative =>
    have turned : (t.coefficient.natAbs : Int) = -t.coefficient := by omega
    have difference : f - sum [t.magnitude] = f + C t.coefficient * X ^ t.power := by
      rw [sum_singleton, magnitude, turned, Polynomial.C_neg, neg_mul, sub_neg_eq_add]
    exact ⟨.subtract, rfl, difference, trivial, fun small i => difference ▸ small i⟩
  · next positive =>
    have same : (t.coefficient.natAbs : Int) = t.coefficient := by omega
    have total : f + sum [t.magnitude] = f + C t.coefficient * X ^ t.power := by
      rw [sum_singleton, magnitude, same]
    exact ⟨.add, rfl, total, trivial, fun small i => total ▸ small i⟩

/-- Small coefficients stay small in the sum of terms in order. -/
theorem Descending.exact (descending : Descending ts) (small : ∀ t ∈ ts, Exact t.coefficient) (i : Nat) :
    Exact ((sum ts).coeff i) := by
  by_cases found : ∃ t ∈ ts, t.power = i
  · obtain ⟨t, member, here⟩ := found
    rw [(descending.coeff_sum i).1 t member here]
    exact small t member
  · rw [(descending.coeff_sum i).2 fun t member here => found ⟨t, member, here⟩]
    decide

theorem Descending.front (descending : Descending (ts ++ [t])) : Descending ts :=
  ⟨fun s member => descending.nonzero s (List.mem_append_left _ member),
    (List.pairwise_append.mp descending.powers).1⟩

end Term

namespace Polynomial

variable {p : Polynomial} {f : ℤ[X]}

/-- A polynomial with one term and no negative coefficient binds more tightly than a sum. -/
theorem precedence_term (spells : p.Spells f) {t : Term} (term : f = C t.coefficient * X ^ t.power)
    (positive : ¬ t.coefficient < 0) :
    Precedence.product.rank ≤ p.precedence.rank := by
  have below (i : Nat) (inside : i < f.natDegree) : f.coeff i = 0 := by
    rw [term, Polynomial.coeff_C_mul_X_pow]
    split
    · next here =>
      by_contra nonzero
      rw [term, Polynomial.natDegree_C_mul_X_pow _ _ nonzero] at inside
      omega
    · rfl
  have few : p.termCount ≤ 1 := by
    have nonempty : p.coefficients.toList ≠ [] := fun none => by
      have size := spells.size
      rw [← Array.length_toList, none] at size
      exact absurd size (Nat.succ_ne_zero _).symm
    have zeros : p.coefficients.toList.dropLast.countP (· != 0.0) = 0 := by
      refine List.countP_eq_zero.mpr fun x member => ?_
      obtain ⟨i, inside, rfl⟩ := List.mem_iff_getElem.mp member
      rw [List.length_dropLast, Array.length_toList, spells.size, Nat.add_sub_cancel] at inside
      have whole := spells.whole i
      rw [below i inside, coefficient, Array.getD_eq_getD_getElem?,
        Array.getElem?_eq_getElem (by rw [spells.size]; omega), Option.getD_some] at whole
      rw [List.getElem_dropLast, Array.getElem_toList, bne, whole.beq_zero]
      decide
    rw [termCount, ← Array.countP_toList, ← List.dropLast_concat_getLast nonempty,
      List.countP_append, zeros, Nat.zero_add]
    exact List.countP_le_length
  have above : ¬ p.lowestCoefficient < 0.0 := by
    rw [lowestCoefficient, (spells.whole _).lt_zero, term, Polynomial.coeff_C_mul_X_pow]
    split
    · exact positive
    · decide
  have loose : (decide (p.termCount > 1) || decide (p.lowestCoefficient < 0.0)) = false := by
    simp only [Bool.or_eq_false_iff, decide_eq_false_iff_not]
    exact ⟨by omega, above⟩
  rw [precedence, if_neg (by rw [loose]; decide)]
  split
  · exact Nat.le_refl _
  · split <;> decide

end Polynomial

structure Label.Takes (a : Mark) (operator : Token.Kind) (sign : Bool) : Prop where
  kind : a.token.kind = operator
  text : a.token.text = operator.symbol.toString
  unary : a.unary = sign
  call : a.call = none
  reduced : a.reduced = false
  deferred : a.deferred = false

namespace Tree

open Term (sumText)

variable {v : Char} {x : Tree Mark} {ts : List Term} {f : ℤ[X]}

theorem Expands.rendered {a : Mark} (expands : (leaf a).Expands v f) :
    (leaf a).rendered.text = sumText v (terms f) ∧
    Precedence.sum.rank ≤ (leaf a).rendered.precedence.rank ∧
      ∀ t : Term, f = C t.coefficient * X ^ t.power → ¬ t.coefficient < 0 →
        Precedence.product.rank ≤ (leaf a).rendered.precedence.rank := by
  cases expands with
  | @value _ q _ call deferred value shown =>
    have written : (leaf a).rendered = q.rendered := by
      rw [Tree.rendered, leafRendered, call, value]
      rfl
    rw [written]
    refine ⟨shown.text, ?_, fun t term positive => ?_⟩
    · cases shown with
      | whole value flat =>
        simp only [Quantity.rendered]
        split <;> decide
      | @proper p _ letter spells _ =>
        simp only [Quantity.rendered, Polynomial.precedence]
        repeat' split
        all_goals decide
    · cases shown with
      | @whole y n _ whole flat =>
        have above : ¬ y < 0.0 := by
          rw [whole.lt_zero]
          have low : n = f.coeff 0 := by rw [flat, Polynomial.coeff_C_zero]
          rw [low, term, Polynomial.coeff_C_mul_X_pow]
          split
          · exact positive
          · decide
        simp only [Quantity.rendered, if_neg above]
        decide
      | proper letter spells _ => exact Polynomial.precedence_term spells term positive

/-- A term without its sign is written without brackets behind a sign. -/
theorem Expands.within_product {a : Mark} {t : Term} (expands : (leaf a).Expands v (Term.sum [t.magnitude]))
    (nonzero : t.coefficient ≠ 0) : (leaf a).rendered.within .product = t.magnitudeText v := by
  obtain ⟨text, _, tight⟩ := expands.rendered
  have descending : Term.Descending [t.magnitude] :=
    ⟨fun s member => by
      obtain rfl := List.mem_singleton.mp member
      simpa [Term.magnitude] using nonzero, List.pairwise_singleton ..⟩
  have rank := tight t.magnitude (Term.sum_singleton _) (by simp [Term.magnitude])
  have same : Term.magnitudeText v t.magnitude = t.magnitudeText v := rfl
  have unsigned : ¬ t.magnitude.coefficient < 0 := by simp [Term.magnitude]
  rw [Rendered.within, if_neg (Nat.not_lt_of_le rank), text, descending.terms_sum]
  simp only [sumText, List.foldl_nil, Term.leadingText, if_neg unsigned, String.empty_append, same]

/-- A sum of terms, part of which is already taken together. -/
inductive Written (v : Char) : Tree Mark → List Term → Prop
  | value {a : Mark} {ts : List Term} (expands : (leaf a).Expands v (Term.sum ts)) : Written v (leaf a) ts
  | negative {a b c : Mark} {t : Term} (takes : a.Takes .minus true) (negative : t.coefficient < 0)
      (zero : (leaf b).Expands v 0) (term : (leaf c).Expands v (Term.sum [t.magnitude])) :
      Written v (fork a (leaf b) (leaf c)) [t]
  | more {a b : Mark} {left : Tree Mark} {ts : List Term} {t : Term} (takes : a.Takes t.sign false)
      (written : Written v left ts) (term : (leaf b).Expands v (Term.sum [t.magnitude]))
      (nonempty : ts ≠ []) :
      Written v (fork a left (leaf b)) (ts ++ [t])

namespace Written

/-- The sum is written as its terms, whatever is taken together. -/
theorem text (written : x.Written v ts) (descending : Term.Descending ts) :
    x.rendered.text = sumText v ts ∧ Precedence.sum.rank ≤ x.rendered.precedence.rank := by
  induction written with
  | value expands =>
    obtain ⟨text, rank, _⟩ := expands.rendered
    exact ⟨by rw [text, descending.terms_sum], rank⟩
  | @negative a b c t takes negative zero term =>
    have nonzero : t.coefficient ≠ 0 := descending.nonzero t (List.mem_singleton.mpr rfl)
    have shown : (fork a (leaf b) (leaf c)).rendered = ⟨"-" ++ t.magnitudeText v, .sum⟩ := by
      rw [rendered, innerRendered, takes.call]
      simp only [operatorRendered, takes.unary, if_true, term.within_product nonzero, takes.text]
      rfl
    rw [shown]
    refine ⟨?_, Nat.le_refl _⟩
    simp only [sumText, List.foldl_nil, Term.leadingText, if_pos negative]
  | @more a b left ts t takes written term nonempty ih =>
    have nonzero : t.coefficient ≠ 0 := descending.nonzero t (by simp)
    obtain ⟨front, rank⟩ := ih descending.front
    have plain : isUnit a left = false := by
      rcases t.sign_cases with kind | kind <;> simp [isUnit, takes.kind, kind]
    have shown : (fork a left (leaf b)).rendered = ⟨sumText v ts ++ t.signedText v, .sum⟩ := by
      have first : left.rendered.within .sum = sumText v ts := by
        rw [Rendered.within, if_neg (Nat.not_lt_of_le rank), front]
      have signed : t.sign.symbol.toString ++ t.magnitudeText v = t.signedText v := by
        rw [← String.toList_inj, Term.toList_signedText]
        simp [Char.toString]
      rw [rendered, innerRendered, takes.call]
      simp only [operatorRendered, takes.unary, plain, Bool.false_eq_true, if_false]
      rcases t.sign_cases with kind | kind <;>
        simp only [takes.kind, kind, Expression.infixed, first, term.within_product nonzero,
          takes.text, String.append_assoc] <;>
        rw [← kind, signed]
    rw [shown]
    exact ⟨(Term.sumText_append nonempty t).symm, Nat.le_refl _⟩

theorem of_idle (written : x.Written v ts) (idle : x.Idle) :
    ∃ a, x = leaf a ∧ (leaf a).Expands v (Term.sum ts) := by
  have goes {a : Mark} {kind : Token.Kind} {unary : Bool} (takes : a.Takes kind unary)
      {left right : Tree Mark} (idle : (fork a left right).Idle) : False := by
    have pending := (idle_fork.mp idle).2.2
    simp [Tree.isPending, isLeaf, Label.isSettled, takes.reduced, takes.deferred] at pending
  cases written with
  | value expands => exact ⟨_, rfl, expands⟩
  | negative takes negative zero term => exact (goes takes idle).elim
  | more takes written term nonempty => exact (goes takes idle).elim

end Written

/-- A term is added to what stands in front of it. -/
theorem reduceTop_term {a b c : Mark} {t : Term} {sign : Bool} (takes : a.Takes t.sign sign)
    (front : (leaf b).Expands v f) (term : (leaf c).Expands v (Term.sum [t.magnitude]))
    (small : ∀ i, Exact ((f + C t.coefficient * X ^ t.power).coeff i)) :
    ∃ d, (fork a (leaf b) (leaf c)).reduceTop = .ok (leaf d) ∧
      (leaf d).Expands v (f + C t.coefficient * X ^ t.power) := by
  obtain ⟨operation, kind, total, expandable, unrounded⟩ := t.sum_sign f
  rw [← total]
  exact Expands.reduceTop takes.call (takes.kind ▸ kind) front term expandable (unrounded small)

namespace Written

/-- A reduction takes the first two terms together. -/
theorem step (written : x.Written v ts) (descending : Term.Descending ts)
    (small : ∀ t ∈ ts, Exact t.coefficient) {result : Except ComputationError (Tree Mark)}
    (stepped : x.step? = some result) :
    ∃ y, result = .ok y ∧ y.Written v ts := by
  have unrounded := descending.exact small
  induction written generalizing result with
  | value expands => simp [expands.still] at stepped
  | @negative a b c t takes negative zero term =>
    rcases step_fork_cases stepped with ⟨next, here, rfl⟩ | ⟨next, here, rfl⟩ | ⟨_, _, _, rfl⟩
    · simp [zero.still] at here
    · simp [term.still] at here
    · have sign : Token.Kind.minus = t.sign := by rw [Term.sign, if_pos negative]
      have whole : 0 + C t.coefficient * X ^ t.power = Term.sum [t] := by rw [zero_add, Term.sum_singleton]
      obtain ⟨d, reduced, expands⟩ := reduceTop_term (sign ▸ takes) zero term (by rwa [whole])
      exact ⟨leaf d, reduced, .value (whole ▸ expands)⟩
  | @more a b left ts t takes written term nonempty ih =>
    rcases step_fork_cases stepped with ⟨next, here, rfl⟩ | ⟨next, here, rfl⟩ | ⟨idle, _, _, rfl⟩
    · have before (s : Term) (member : s ∈ ts) : Exact s.coefficient :=
        small s (List.mem_append_left _ member)
      obtain ⟨y, rfl, kept⟩ := ih descending.front before here (descending.front.exact before)
      exact ⟨_, rfl, .more takes kept term nonempty⟩
    · simp [term.still] at here
    · obtain ⟨c, rfl, front⟩ := written.of_idle idle
      rw [Term.sum_append] at unrounded
      obtain ⟨d, reduced, expands⟩ := reduceTop_term takes front term unrounded
      exact ⟨leaf d, reduced, .value (Term.sum_append ts t ▸ expands)⟩

theorem next (written : x.Written v ts) (descending : Term.Descending ts)
    (small : ∀ t ∈ ts, Exact t.coefficient) :
    (∃ y, x.next? = some (.ok y) ∧ y.Written v ts) ∨ x.next? = none ∧ ∃ a, x = leaf a ∧
    (leaf a).Expands v (Term.sum ts) := by
  cases stepped : x.step? with
  | none => exact .inr ⟨by simp [next?, stepped], written.of_idle ((step_none_iff x).mp stepped)⟩
  | some result =>
    obtain ⟨y, rfl, kept⟩ := written.step descending small stepped
    refine .inl ⟨y, ?_, kept⟩
    cases written with
    | value expands => simp [expands.still] at stepped
    | negative takes negative zero term =>
      rw [next?, if_pos
        (by simp [Tree.isPending, isLeaf, Label.isSettled, takes.reduced, takes.deferred]), stepped]
    | more takes written term nonempty =>
      rw [next?, if_pos
        (by simp [Tree.isPending, isLeaf, Label.isSettled, takes.reduced, takes.deferred]), stepped]

/-- The text never changes in a run, which ends in a leaf with the sum. -/
theorem run {x : Tree Mark} (written : x.Written v ts) (descending : Term.Descending ts)
    (small : ∀ t ∈ ts, Exact t.coefficient) :
    x.run.2 = .ok () ∧ (∀ y ∈ x.run.1, y.text = sumText v ts) ∧
      ∃ a, x.reduct = leaf a ∧ (leaf a).Expands v (Term.sum ts) := by
  rcases written.next descending small with ⟨y, goes, kept⟩ | ⟨stops, a, rfl, expands⟩
  · obtain ⟨ended, texts, last⟩ := kept.run descending small
    rw [reduct_goes goes, run_goes goes]
    exact ⟨ended, List.forall_mem_cons.mpr ⟨(kept.text descending).1, texts⟩, last⟩
  · rw [reduct, run_done stops]
    exact ⟨rfl, fun _ member => absurd member List.not_mem_nil, a, rfl, expands⟩
termination_by x.effort
decreasing_by exact effort_next goes

end Written

/-- The trace of a sum shows it twice, and leaves the polynomial. -/
theorem trace_written {y : Tree Mark} (prepared : x.prepare = (y, .ok ())) (written : y.Written v ts)
    (descending : Term.Descending ts) (small : ∀ t ∈ ts, Exact t.coefficient) :
    x.trace.lines = ["Expression: " ++ sumText v ts, sumText v ts] ∧ x.trace.ended = .ok () ∧
      ∃ a, x.trace.tree = leaf a ∧ (leaf a).Expands v (Term.sum ts) := by
  obtain ⟨ended, texts, a, last, expands⟩ := written.run descending small
  have text : y.text = sumText v ts := (written.text descending).1
  have text' : (leaf a).text = sumText v ts := ((Written.value expands).text descending).1
  have plain : (leaf a).simplifyRoot = .ok (leaf a) := by
    cases expands with
    | value call deferred value expands => simp [simplifyRoot, rootNumber?, call]
  have single : y.linesWith [leaf a] = ["Expression: " ++ sumText v ts] := by
    have same : ∀ line ∈ (y.run.1 ++ [leaf a]).map Tree.text, line = y.text := by
      simp only [List.map_append, List.forall_mem_append, List.forall_mem_map, List.map_singleton,
        List.forall_mem_singleton]
      exact ⟨fun z member => (texts z member).trans text.symm, text'.trans text.symm⟩
    rw [linesWith, fresh_same same, opening, text]
  have done : y.reduceFully = ⟨leaf a, ["Expression: " ++ sumText v ts, sumText v ts], .ok ()⟩ := by
    simp [reduceFully, ended, last, plain, single, text']
  have whole : x.trace = y.reduceFully := by rw [trace, prepared]
  rw [whole, done]
  exact ⟨rfl, rfl, a, rfl, expands⟩

theorem literal_nat (n : Nat) : IsLiteral (toString n) ∧ literal (toString n) = n := by
  have digits : (toString n).toList = Nat.toDigits 10 n := Nat.toList_repr
  have all : ∀ c ∈ Nat.toDigits 10 n, c.isDigit :=
    fun c member => Nat.isDigit_of_mem_toDigits (by omega) (by omega) member
  refine ⟨⟨_, Nat.toDigits_ne_nil, all, .inl digits⟩, ?_⟩
  have value : Decimal.digitsValue (Nat.toDigits 10 n) = n := Nat.ofDigitChars_ten_toDigits
  unfold literal
  rw [digits]
  split
  · next rest minus =>
    have := all '-' (minus ▸ List.mem_cons_self ..)
    simp at this
  · rw [value]

theorem expandsTo_digits {token : Token} {n : Nat} (kind : token.kind = .number)
    (text : token.text = toString n) (small : Exact n) :
    (leaf ({ token } : Mark)).ExpandsTo v (C (n : Int)) := by
  obtain ⟨isLiteral, value⟩ := literal_nat n
  exact .number kind (text ▸ isLiteral) (text ▸ value) small

/-- A leaf stays one when it is prepared. -/
theorem prepared_leaf (a : Mark) : ∃ b, (leaf a).recognize.attachQuantities = leaf b := by
  unfold recognize
  split <;> exact ⟨_, rfl⟩

theorem fresh_token (token : Token) (unary : Bool)
    (sign : unary = true → token.kind = .plus ∨ token.kind = .minus) :
    ({ token, unary } : Mark).Fresh := ⟨rfl, rfl, rfl, sign⟩

theorem fresh_leaf (token : Token) : (leaf ({ token } : Mark)).Fresh := by
  simpa [Fresh, flatten] using fresh_token token false (by simp)

/-- A term is prepared to a leaf with the term. -/
theorem denotes_prepared {t : Term} (denotes : t.Denotes v x) (small : Exact t.coefficient)
    (low : t.power ≤ maxPolynomialPower) :
    x.Expandable v ∧ ∃ b, x.recognize.attachQuantities = leaf b ∧
      (leaf b).Expands v (Term.sum [t.magnitude]) := by
  have unrounded : Exact (t.coefficient.natAbs : Int) := small
  suffices x.ExpandsTo v (Term.sum [t.magnitude]) ∧ x.Fresh ∧ ∃ b, x.recognize.attachQuantities = leaf b by
    obtain ⟨expands, fresh, b, prepared⟩ := this
    have attached := expands.expandable.attachQuantities expands.unrounded fresh
    rw [prepared, expands.value] at attached
    exact ⟨expands.expandable, b, prepared, attached⟩
  cases denotes with
  | @number _ place flat =>
    have constant : Term.sum [t.magnitude] = C (t.coefficient.natAbs : Int) := by
      rw [Term.sum_singleton, Term.magnitude, flat, pow_zero, mul_one]
    rw [constant]
    exact ⟨expandsTo_digits rfl rfl unrounded, fresh_leaf _, prepared_leaf _⟩
  | @power _ coefficient letter caret exponent high number digits isLetter named isCaret isNumber digits' =>
    have factor := expandsTo_digits (v := v) number digits unrounded
    have height := expandsTo_digits (v := v) isNumber digits' (Nat.lt_of_le_of_lt low (by decide))
    have expands :
        (ofLetter coefficient letter caret (leaf ({ token := exponent } : Mark))).ExpandsTo v
        (Term.sum [t.magnitude]) := by
      rw [Term.sum_singleton]
      exact monomial_expandsTo factor unrounded isLetter named isCaret height low
    have fresh : (ofLetter coefficient letter caret (leaf ({ token := exponent } : Mark))).Fresh :=
      fresh_fork.mpr ⟨fresh_token _ false (by simp), fresh_leaf _,
        fresh_fork.mpr ⟨fresh_token _ false (by simp), fresh_leaf _, fresh_leaf _⟩⟩
    refine ⟨expands, fresh, ?_⟩
    obtain ⟨c, read, _⟩ := (literal_nat t.coefficient.natAbs).1.read ((literal_nat _).2.symm ▸ unrounded)
    have exact' : Exact (t.power : Int) := Nat.lt_of_le_of_lt low (by decide)
    obtain ⟨k, read', whole⟩ := (literal_nat t.power).1.read ((literal_nat _).2.symm ▸ exact')
    have bound : polynomialPower? k = some t.power := by
      rw [(literal_nat _).2] at whole
      simp [polynomialPower?, whole.toWhole, low]
    have found : (fork ({ token := .inserted .times "*" } : Mark) (leaf { token := coefficient })
        (fork { token := caret } (leaf { token := letter }) (leaf { token := exponent }))).recognized? =
          some (Quantity.polynomial (.monomial c t.power v)).normalized := by
      simp [-Nat.toString_eq_repr, recognized?, monomial?, Token.inserted, numberLeaf?, number,
        digits, read, isCaret, letterLeaf?, isLetter, named, isNumber, digits', read', bound]
    rw [ofLetter, recognize, found]
    exact ⟨_, rfl⟩

/-- Sums are prepared term by term. -/
theorem prepared_sum {a : Mark} {left right : Tree Mark}
    (kind : a.token.kind = .plus ∨ a.token.kind = .minus) (call : a.call = none) :
    (fork a left right).recognize.attachQuantities =
    fork a left.recognize.attachQuantities right.recognize.attachQuantities := by
  have none : (fork a left right).recognized? = none := by
    have other : a.token.kind ≠ .times := by rcases kind with kind | kind <;> simp [kind]
    unfold recognized? monomial?
    cases right <;> simp [other, isLeaf]
  rw [recognize, none]
  simp only
  rw [attachQuantities, attachCall_unmarked (x := fork a left.recognize right.recognize) call]
  rfl

/-- A sum that is read is prepared to the sum of its terms. -/
theorem sumOf_prepared (sum : Term.SumOf v x ts) (small : ∀ t ∈ ts, Exact t.coefficient)
    (low : ∀ t ∈ ts, t.power ≤ maxPolynomialPower) :
    x.Expandable v ∧ ts ≠ [] ∧ x.recognize.attachQuantities.Written v ts := by
  induction sum with
  | @positive x t positive denotes =>
    have here := List.mem_singleton.mpr (Eq.refl t)
    obtain ⟨expandable, b, prepared, expands⟩ := denotes_prepared denotes (small t here) (low t here)
    have same : t.magnitude = t := by
      obtain ⟨c, k⟩ := t
      simp only [Term.magnitude, Term.mk.injEq, and_true]
      simp only at positive
      omega
    rw [prepared]
    exact ⟨expandable, List.cons_ne_nil _ _, .value (same ▸ expands)⟩
  | @negative x t place negative denotes =>
    have here := List.mem_singleton.mpr (Eq.refl t)
    obtain ⟨expandable, c, prepared, expands⟩ := denotes_prepared denotes (small t here) (low t here)
    have flat : (⟨0, 0⟩ : Term).power = 0 := rfl
    obtain ⟨zero, b, prepared', nothing⟩ :=
      denotes_prepared (@Term.Denotes.number _ v _ none flat) (by decide) (by decide)
    have sum : Term.sum [Term.magnitude ⟨0, 0⟩] = 0 := by simp [Term.sum, Term.magnitude]
    rw [prepared_sum (.inr rfl) rfl]
    refine ⟨⟨rfl, ⟨.subtract, rfl, trivial⟩, zero, expandable⟩, List.cons_ne_nil _ _, ?_⟩
    rw [prepared]
    have prepared' : (leaf { token := Token.inserted .number "0" }).recognize.attachQuantities =
      leaf b := prepared'
    rw [prepared']
    exact .negative ⟨rfl, rfl, rfl, rfl, rfl, rfl⟩ negative (sum ▸ nothing) expands
  | @more x y ts t place sum denotes ih =>
    have here : t ∈ ts ++ [t] := by simp
    obtain ⟨left, nonempty, written⟩ := ih (fun s member => small s (List.mem_append_left _ member))
      fun s member => low s (List.mem_append_left _ member)
    obtain ⟨right, b, prepared, expands⟩ := denotes_prepared denotes (small t here) (low t here)
    obtain ⟨operation, kind, _, _⟩ := t.sum_sign 0
    rw [prepared_sum t.sign_cases rfl, prepared]
    refine ⟨⟨rfl, ⟨operation, kind, ?_⟩, left, right⟩, by simp,
      .more ⟨rfl, rfl, rfl, rfl, rfl, rfl⟩ written expands nonempty⟩
    rcases t.sign_cases with plus | minus
    · rw [plus] at kind
      obtain rfl := Option.some.inj kind
      trivial
    · rw [minus] at kind
      obtain rfl := Option.some.inj kind
      trivial

end Tree

/-- Polynomials in one letter with the same whole coefficients agree. -/
theorem Quantity.agrees_spells {p q : Polynomial} {f : ℤ[X]} (first : p.Spells f)
    (second : q.Spells f) (letter : p.letter = q.letter) :
    (polynomial p).agrees (polynomial q) = true := by
  have same : (p.coefficients == q.coefficients) = true := by
    refine Array.isEqv_iff_rel.mpr ⟨first.size.trans second.size.symm, fun i inside => ?_⟩
    have left := first.whole i
    have right := second.whole i
    have inside' : i < q.coefficients.size := by rwa [second.size, ← first.size]
    rw [Polynomial.coefficient, Array.getD_eq_getD_getElem?, Array.getElem?_eq_getElem inside,
      Option.getD_some] at left
    rw [Polynomial.coefficient, Array.getD_eq_getD_getElem?, Array.getElem?_eq_getElem inside',
      Option.getD_some] at right
    simpa using left.beq right
  simp [agrees, same, letter]

/-- The terms of a polynomial with the letter start with that of its degree. -/
theorem terms_cons {f : ℤ[X]} (positive : 0 < f.natDegree) :
    terms f = ⟨f.coeff f.natDegree, f.natDegree⟩ :: termsBelow f f.natDegree := by
  have nonzero : f.coeff f.natDegree ≠ 0 := by
    rw [Polynomial.coeff_natDegree, ne_eq, Polynomial.leadingCoeff_eq_zero]
    rintro rfl
    simp at positive
  rw [terms, termsBelow, if_neg nonzero]

namespace Formula

open Expression

theorem root_of_leaf {e : Formula} {a : Mark} (displays : e.Displays (.leaf a)) :
    (e.node e.root).isLeaf ∧ (e.node e.root).label = a := by
  obtain ⟨t, spans, root, view⟩ := displays
  obtain ⟨id, rfl, rfl⟩ := view_eq_leaf view
  rw [← root]
  exact ⟨isLeaf_of_links spans.links, rfl⟩

/-- A polynomial with whole coefficients of a degree of at most 32 is read back from how it is
written. The text is shown as the expression and once more as its result, and what is left is a leaf
with the polynomial. -/
theorem evaluate_text {p : Polynomial} {f : ℤ[X]} (low : 'a' ≤ p.letter) (high : p.letter ≤ 'z')
    (spells : p.Spells f) (positive : 1 ≤ p.degree) (small : p.degree ≤ maxPolynomialPower) :
    ∃ e : Formula, Expression.ofText p.text = .ok e ∧
      (evaluate e).steps = #["Expression: " ++ p.text, p.text] ∧
        ∃ root q, (evaluate e).formula.node (evaluate e).formula.root = root ∧ root.isLeaf ∧
        root.value = some (.polynomial q) ∧
          (Quantity.polynomial q).agrees (.polynomial p) = true := by
  rw [spells.degree] at positive small
  have descending := terms_descending f
  have unrounded (t : Term) (member : t ∈ terms f) : Exact t.coefficient :=
    (mem_terms.mp member).1 ▸ (spells.whole t.power).small
  have bound (t : Term) (member : t ∈ terms f) : t.power ≤ maxPolynomialPower :=
    Nat.le_trans (Nat.le_of_lt_succ (mem_termsBelow.mp member).1) small
  obtain ⟨x, built, sum⟩ := Term.ofText_sumText (ν := Quantity) low high ⟨f.coeff f.natDegree, f.natDegree⟩
    (termsBelow f f.natDegree) (Nat.ne_of_gt positive)
  rw [← terms_cons positive] at built sum
  obtain ⟨e, parsed, displays⟩ := ofText_of_tree built
  obtain ⟨shown, lines, _⟩ := evaluate_eq displays (Tree.ofText_formed built)
  obtain ⟨expandable, _, written⟩ := Tree.sumOf_prepared sum unrounded bound
  have prepared : x.prepare = (x.recognize.attachQuantities, .ok ()) := by
    simp only [Tree.prepare, expandable.foldFactorials]
  obtain ⟨twice, _, a, last, expands⟩ := Tree.trace_written prepared written descending unrounded
  rw [last] at shown
  rw [twice] at lines
  obtain ⟨isLeaf, label⟩ := root_of_leaf shown
  rw [sum_terms] at expands
  rw [Polynomial.text_spells spells]
  cases expands with
  | value call deferred value read =>
    cases read with
    | whole _ flat =>
      rw [flat, Polynomial.natDegree_C] at positive
      omega
    | @proper q _ letter spells' _ =>
      exact ⟨e, parsed, Array.toList_inj.mp lines, _, q, rfl, isLeaf,
        (congrArg Label.value label).trans value, Quantity.agrees_spells spells' spells letter⟩

/-- A negative leading term, a unit coefficient and a constant. -/
theorem evaluate_text_quadratic :
    ∃ (p : Polynomial) (f : ℤ[X]), 'a' ≤ p.letter ∧ p.letter ≤ 'z' ∧ p.Spells f ∧ 1 ≤ p.degree ∧
    p.degree ≤ maxPolynomialPower ∧ p.text = "-2x^2+x-3" ∧ ∃ e : Formula, Expression.ofText p.text = .ok e ∧
      (evaluate e).steps = #["Expression: " ++ p.text, p.text] ∧
        ∃ root q, (evaluate e).formula.node (evaluate e).formula.root = root ∧ root.isLeaf ∧
        root.value = some (.polynomial q) ∧
          (Quantity.polynomial q).agrees (.polynomial p) = true := by
  have descending : Term.Descending [⟨-2, 2⟩, ⟨1, 1⟩, ⟨-3, 0⟩] := ⟨by decide, by decide⟩
  have sum : (C (-2) * X ^ 2 + C 1 * X + C (-3) : ℤ[X]) = Term.sum [⟨-2, 2⟩, ⟨1, 1⟩, ⟨-3, 0⟩] := by
    simp only [Term.sum, List.map_cons, List.map_nil, List.sum_cons, List.sum_nil, pow_zero, pow_one]
    ring
  have degree : (C (-2) * X ^ 2 + C 1 * X + C (-3) : ℤ[X]).natDegree = 2 :=
    Polynomial.natDegree_quadratic (by decide)
  obtain ⟨spells, letter⟩ :
      (Polynomial.make #[Decimal.ofInt (-3), Decimal.ofInt 1, Decimal.ofInt (-2)] 'x').Spells
        (C (-2) * X ^ 2 + C 1 * X + C (-3)) ∧
      (Polynomial.make #[Decimal.ofInt (-3), Decimal.ofInt 1, Decimal.ofInt (-2)] 'x').letter =
        'x' := by
    refine Polynomial.make_spells (fun i inside => ?_) (by rw [degree]; decide) _
    have value : (C (-2) * X ^ 2 + C 1 * X + C (-3) : ℤ[X]).coeff i = [-3, 1, -2].getD i 0 := by
      rcases i with _ | _ | _ | i <;> simp [Polynomial.coeff_X] at inside ⊢
    rw [value]
    rcases i with _ | _ | _ | i
    · exact Decimal.ofInt_whole (a := -3) (by decide)
    · exact Decimal.ofInt_whole (a := 1) (by decide)
    · exact Decimal.ofInt_whole (a := -2) (by decide)
    · simp at inside
      omega
  generalize Polynomial.make #[Decimal.ofInt (-3), Decimal.ofInt 1, Decimal.ofInt (-2)] 'x' =
    p at spells letter
  have low : 'a' ≤ p.letter := by rw [letter]; decide
  have high : p.letter ≤ 'z' := by rw [letter]; decide
  have positive : 1 ≤ p.degree := by rw [spells.degree, degree]; decide
  have small : p.degree ≤ maxPolynomialPower := by rw [spells.degree, degree]; decide
  have text : p.text = "-2x^2+x-3" := by
    rw [Polynomial.text_spells spells, sum, descending.terms_sum, letter]
    decide +kernel
  exact ⟨p, _, low, high, spells, positive, small, text, evaluate_text low high spells positive small⟩

end Formula

end Stepwise

end
