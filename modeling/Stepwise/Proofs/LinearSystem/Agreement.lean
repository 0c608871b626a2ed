import Stepwise.Proofs.LinearSystem.Single
import Stepwise.Proofs.Reduction.Fit
import Stepwise.Proofs.Reduction.Letterless

/-! The two ways to solve an equation in one letter. Main statement: where a linear equation is
evaluated to a number, solving it as a system gives one line, for its letter, with the same number
to six places. -/
section

open Polynomial (C X)
open scoped Polynomial

namespace Stepwise

namespace Tree

variable {ν : Type} {x left right : Tree (Label ν)} {v : Char}

theorem IsInteger.expansion_eq (isInteger : x.IsInteger) : x.expansion = C x.integer := by
  cases x with
  | leaf a => rw [expansion, if_neg (by simp [isInteger.2.1]), integer]
  | group a inner => exact isInteger.elim
  | fork a left right => exact isInteger.elim

structure Line (x : Tree (Label ν)) (v : Char) (m n : ℤ) : Prop where
  expansion : x.expansion = C m * X + C n
  exact_eq : ∀ w : Char → ℚ, x.exact w = m * w v + n

theorem IsInteger.line (isInteger : x.IsInteger) (v : Char) : x.Line v 0 x.integer :=
  ⟨by rw [isInteger.expansion_eq]; simp, fun w => by rw [isInteger.exact_eq]; simp⟩

theorem term_line {n : ℤ} {letter : Char} (found : x.term? = some (n, letter)) (expandable : x.Expandable v) :
    letter = v ∧ x.Line v n 0 := by
  have value := exact_term found
  obtain ⟨a, m, b, c, k, rfl, ⟨_, times⟩, ⟨isInteger, rfl⟩, power, ⟨one, height⟩, ⟨_, kind⟩, named⟩ :=
    term_cases found
  obtain ⟨-, -, -, -, -, ⟨-, letter' | letter'⟩, -⟩ := expandable
  · simp [kind] at letter'
  · rw [letter'.2] at named
    obtain rfl : v = letter := by simpa using named
    refine ⟨rfl, ?_, fun w => by rw [value]; simp⟩
    have product : Operation.ofKind? a.token.kind = some .multiply := by rw [times]; rfl
    have raised : Operation.ofKind? b.token.kind = some .power := by rw [power]; rfl
    have base : (leaf c).expansion = X := by rw [expansion, if_pos kind]
    rw [expansion_fork product, expansion_fork raised, isInteger.expansion_eq, one.expansion_eq, height, base]
    simp [Operation.expand]

/-- A linear side in one letter is a line. -/
theorem IsLinear.line (linear : x.IsLinear) (expandable : x.Expandable v) : ∃ m n, x.Line v m n := by
  induction x with
  | leaf a => exact ⟨_, _, IsInteger.line linear v⟩
  | group a inner ih => exact linear.elim
  | fork a left right ihl ihr =>
    rcases linear with term | ⟨call, linear⟩
    · obtain ⟨⟨n, letter⟩, found⟩ := Option.isSome_iff_exists.mp term
      exact ⟨n, 0, (term_line found expandable).2⟩
    · obtain ⟨-, ⟨operation, same, able⟩, l, r⟩ := expandable
      have expand := @expansion_fork _ a left right _ same
      cases kind : a.token.kind <;> simp only [kind] at linear
      case plus =>
        obtain rfl : .add = operation := by simpa [kind, Operation.ofKind?] using same
        obtain ⟨m, n, first⟩ := ihl linear.1 l
        obtain ⟨k, j, second⟩ := ihr linear.2 r
        refine ⟨m + k, n + j, ?_, fun w => ?_⟩
        · rw [expand, Operation.expand, first.expansion, second.expansion, Polynomial.C_add, Polynomial.C_add]
          ring
        · simp only [exact, kind, first.exact_eq, second.exact_eq]
          push_cast
          ring
      case minus =>
        obtain rfl : .subtract = operation := by simpa [kind, Operation.ofKind?] using same
        obtain ⟨m, n, first⟩ := ihl linear.1 l
        obtain ⟨k, j, second⟩ := ihr linear.2 r
        refine ⟨m - k, n - j, ?_, fun w => ?_⟩
        · rw [expand, Operation.expand, first.expansion, second.expansion, Polynomial.C_sub, Polynomial.C_sub]
          ring
        · simp only [exact, kind, first.exact_eq, second.exact_eq]
          push_cast
          ring
      case times =>
        obtain rfl : .multiply = operation := by simpa [kind, Operation.ofKind?] using same
        rcases linear with ⟨first, second⟩ | ⟨first, second⟩
        · obtain ⟨m, n, second⟩ := ihr second r
          refine ⟨left.integer * m, left.integer * n, ?_, fun w => ?_⟩
          · rw [expand, Operation.expand, first.expansion_eq, second.expansion, Polynomial.C_mul,
              Polynomial.C_mul]
            ring
          · simp only [exact, kind, first.exact_eq, second.exact_eq]
            push_cast
            ring
        · obtain ⟨m, n, first⟩ := ihl first l
          refine ⟨m * right.integer, n * right.integer, ?_, fun w => ?_⟩
          · rw [expand, Operation.expand, first.expansion, second.expansion_eq, Polynomial.C_mul,
              Polynomial.C_mul]
            ring
          · simp only [exact, kind, first.exact_eq, second.exact_eq]
            push_cast
            ring
      case divide =>
        obtain rfl : .divide = operation := by simpa [kind, Operation.ofKind?] using same
        exact able.elim

/-- The only letter is the one that the sides expand to. -/
theorem Expandable.letters_eq (expandable : x.Expandable v) : ∀ letter ∈ x.letters, letter = v := by
  induction x with
  | leaf a => exact fun letter member => by cases member
  | group a inner ih => exact expandable.elim
  | fork a left right ihl ihr =>
    intro letter member
    cases found : (fork a left right).term? with
    | none =>
      rw [letters_fork found] at member
      obtain ⟨-, -, l, r⟩ := expandable
      exact (List.mem_append.mp member).elim (ihl l letter) (ihr r letter)
    | some term =>
      obtain ⟨n, name⟩ := term
      rw [letters, found] at member
      obtain rfl := (term_line found expandable).1
      by_cases zero : n = 0
      · simp [zero] at member
      · simpa [zero] using member

/-- Letters are small. -/
theorem letters_small {x : Tree Mark} (fit : x.Fit Label.IsSpelled) :
    ∀ letter ∈ x.letters, 'a' ≤ letter ∧ letter ≤ 'z' := by
  induction x with
  | leaf a => exact fun letter member => by cases member
  | group a inner ih => exact ih fit.2.2
  | fork a left right ihl ihr =>
    intro letter member
    cases found : (fork a left right).term? with
    | none =>
      rw [letters_fork found] at member
      obtain ⟨-, -, l, r⟩ := fit
      exact (List.mem_append.mp member).elim (ihl l letter) (ihr r letter)
    | some term =>
      obtain ⟨n, name⟩ := term
      rw [letters, found] at member
      obtain rfl : letter = name := by
        by_cases zero : n = 0
        · simp [zero] at member
        · simpa [zero] using member
      obtain ⟨b, m, c, d, k, same, -, -, -, -, ⟨-, kind⟩, named⟩ := term_cases found
      obtain ⟨rfl, rfl, rfl⟩ := Tree.fork.inj same
      exact head_letter kind (fit.2.2.2.2.2.1.2.letter kind) named

/-- A linear equation in one letter, without quotients. -/
def IsEquationIn (v : Char) : Tree (Label ν) → Prop
  | fork a left right => (fork a left right).IsLinearEquation ∧ left.Expandable v ∧ right.Expandable v
  | _ => False

/-- Nothing is rounded when the sides are expanded and taken to one side. -/
def BalancesExactly : Tree (Label ν) → Prop
  | fork _ left right =>
    left.ExpandsExactly ∧ right.ExpandsExactly ∧ ∀ i, Exact ((left.expansion - right.expansion).coeff i)
  | _ => False

theorem Expandable.readsExactly (expandable : x.Expandable v) (unrounded : x.ExpandsExactly) :
    x.ReadsExactly := by
  induction x with
  | leaf a => exact fun b member => List.mem_singleton.mp member ▸ unrounded
  | group a inner ih => exact expandable.elim
  | fork a left right ihl ihr =>
    obtain ⟨-, ⟨operation, kind, -⟩, l, r⟩ := expandable
    obtain ⟨exactl, exactr, -⟩ := unrounded
    rintro b (_ | ⟨_, member⟩) number
    · simp [number, Operation.ofKind?] at kind
    · exact (List.mem_append.mp member).elim (fun inside => ihl l exactl b inside number)
        fun inside => ihr r exactr b inside number

structure Balances (x : Tree (Label ν)) (v : Char) (m n : ℤ) : Prop where
  slope : x.coefficient v = m
  offset : x.exact 0 = n
  solution : x.solution v = -n / m

theorem balances {a : Label ν} {m n k j : ℤ} (kind : a.token.kind = .equals) (first : left.Line v m n)
    (second : right.Line v k j) : (fork a left right).Balances v (m - k) (n - j) := by
  have exact_eq (w : Char → ℚ) : (fork a left right).exact w = (m - k : ℤ) * w v + (n - j : ℤ) := by
    simp only [exact, kind, first.exact_eq, second.exact_eq]
    push_cast
    ring
  have slope : (fork a left right).coefficient v = (m - k : ℤ) := by simp [coefficient, exact_eq]
  have offset : (fork a left right).exact 0 = (n - j : ℤ) := by simp [exact_eq]
  exact ⟨slope, offset, by rw [solution, slope, offset]⟩

end Tree

namespace LinearSystem

open Decimal (IsModerate IsNear IsClear)

theorem zero_or_moderate {n : ℤ} (small : Exact n) : (n : ℚ) = 0 ∨ IsModerate n := by
  by_cases zero : n = 0
  · exact .inl (by rw [zero, Int.cast_zero])
  · exact .inr (Decimal.isModerate_of_exact zero small)

/-- A fraction in lowest terms is rounded once. -/
theorem isNear_ratio {r : ℚ} (num : Exact r.num) (den : Exact r.den) :
    IsNear (Decimal.ofInt r.num / Decimal.ofInt r.den) r := by
  have divisor : (r.den : ℤ) ≠ 0 := by exact_mod_cast r.den_ne_zero
  have near := (Decimal.ofInt_whole num).isRational.div_isNear (Decimal.ofInt_whole den).isRational
    (zero_or_moderate num) (Decimal.isModerate_of_exact divisor den)
  rwa [Int.cast_natCast, Rat.num_div_den] at near

end LinearSystem

namespace Tree

def bareLetter (position : Nat) : Tree Mark :=
  lettered ⟨.letter, "x", some position⟩ (.inserted .power "^") (.inserted .number "1")

/-- The left side of `4*(x-2)=x+5`. -/
def scaledDifference : Tree Mark :=
  fork { token := ⟨.times, "*", some 1⟩ } (leaf { token := ⟨.number, "4", some 0⟩ })
    (fork { token := ⟨.minus, "-", some 4⟩ } (bareLetter 3) (leaf { token := ⟨.number, "2", some 5⟩ }))

/-- The right side of `4*(x-2)=x+5`. -/
def shiftedLetter : Tree Mark :=
  fork { token := ⟨.plus, "+", some 9⟩ } (bareLetter 8) (leaf { token := ⟨.number, "5", some 10⟩ })

def betweenSides : Tree Mark := fork { token := ⟨.equals, "=", some 7⟩ } scaledDifference shiftedLetter

theorem bareLetter_expandsTo (position : Nat) : (bareLetter position).ExpandsTo 'x' X := by
  rw [← pow_one X]
  exact lettered_expandsTo rfl (by simp) rfl rfl
    (isLiteral_digit '1' (by simp [Token.inserted]) rfl) (n := 1) rfl (by decide)

theorem scaledDifference_expandsTo : scaledDifference.ExpandsTo 'x' (C 4 * X + C (-8)) := by
  have small := exact_linear (m := 1) (n := -2) (by decide) (by decide)
  have difference : Operation.subtract.expand X (C 2) = C 1 * X + C (-2) := by
    rw [Operation.expand, Polynomial.C_neg, Polynomial.C_1, one_mul, sub_eq_add_neg]
  have product : Operation.multiply.expand (C 4) (C 1 * X + C (-2)) = C 4 * X + C (-8) := by
    rw [Operation.expand, mul_add, ← mul_assoc, ← Polynomial.C_mul, ← Polynomial.C_mul]
    rfl
  rw [← product]
  refine .operator rfl rfl (.number rfl (isLiteral_digit '4' (by simp) rfl) rfl (by decide)) ?_ trivial ?_
  · rw [← difference] at small ⊢
    exact .operator rfl rfl (bareLetter_expandsTo 3)
      (.number rfl (isLiteral_digit '2' (by simp) rfl) rfl (by decide)) trivial small
  · refine exactProduct_of_small (d := 0) (a := 4) (b := 2) (by simp) (fun i => ?_)
      (natAbs_coeff_linear 1 (-2)) (by decide)
    rw [Polynomial.coeff_C]
    split <;> decide

theorem shiftedLetter_expandsTo : shiftedLetter.ExpandsTo 'x' (C 1 * X + C 5) := by
  have small := exact_linear (m := 1) (n := 5) (by decide) (by decide)
  have sum : Operation.add.expand X (C 5) = C 1 * X + C 5 := by rw [Operation.expand, Polynomial.C_1, one_mul]
  rw [← sum] at small ⊢
  exact .operator rfl rfl (bareLetter_expandsTo 8)
    (.number rfl (isLiteral_digit '5' (by simp) rfl) rfl (by decide)) trivial small

theorem betweenSides_balances : betweenSides.BalancesExactly := by
  have difference : (C 4 * X + C (-8)) - (C 1 * X + C 5) = (C 3 * X + C (-13) : ℤ[X]) := by
    simp only [map_neg, map_one, map_ofNat]
    ring
  refine ⟨scaledDifference_expandsTo.unrounded, shiftedLetter_expandsTo.unrounded, ?_⟩
  rw [scaledDifference_expandsTo.value, shiftedLetter_expandsTo.value, difference]
  exact exact_linear (by decide) (by decide)

end Tree

namespace LinearSystem

open Decimal (IsClear)

-- what is below a ten-thousandth is set to zero, and the reciprocal of the coefficient is rounded:
-- 3/640 is 0.0046875
example : (solve ["100000x=1"]).toOption = some ["x = 0"] := by decide +kernel

example :
    (solve ["640x=3"]).toOption = some ["x = 0.004688"] ∧
      Decimal.sixPlaces (3.0 / 640.0) = "0.004687" := by
  decide +kernel

def refusedTerm? (answer : Except Failure (List String)) : Option String :=
  match answer with
  | .error (.computation (.nonLinear term)) => some term
  | _ => none

theorem eq_of_refusedTerm {answer : Except Failure (List String)} {term : String}
    (refused : refusedTerm? answer = some term) :
    answer = .error (.computation (.nonLinear term)) := by
  unfold refusedTerm? at refused
  split at refused
  · cases refused
    rfl
  · cases refused

end LinearSystem

end Stepwise

end
