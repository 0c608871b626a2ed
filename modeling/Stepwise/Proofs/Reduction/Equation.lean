import Stepwise.Proofs.Reduction.Expand

/-! Linear equations are solved. Main statement: an equation whose sides differ by `m * v + n` once they are
expanded is reduced to `v = q`, with the quotient of `-n` and `m` in lowest terms. -/
section

open Polynomial (C X)
open scoped Polynomial

namespace Stepwise

open Decimal (IsWhole)

structure Label.Equation (a : Mark) : Prop where
  kind : a.token.kind = .equals
  call : a.call = none
  unary : a.unary = false
  reduced : a.reduced = false
  deferred : a.deferred = false

namespace Tree

variable {v : Char} {q : Rat} {a b c : Mark}

/-- An equation on the way from its sides to `v = q`. -/
inductive Solves (v : Char) (q : Rat) : Tree Mark → Prop
  | sides {a : Mark} {left right : Tree Mark} {f g : ℤ[X]} {m n : Int} (equation : a.Equation)
      (l : left.Expands v f)
      (r : right.Expands v g) (linear : f - g = C m * X + C n) (slope : m ≠ 0) (first : Exact m)
      (second : Exact n)
      (solution : q = -n / m) : Solves v q (fork a left right)
  | bare {a : Mark} {left right : Tree Mark} (equation : a.Equation) (l : left.Expands v X)
      (r : right.Reads (some q)) :
      Solves v q (fork a left right)
  | solved {a b c : Mark} (equation : a.Equation) (l : (leaf b).Expands v X) (r : (leaf c).Reads (some q)) :
      Solves v q ((fork a (leaf b) (leaf c)).settleEquation)

/-- The offset `n` is taken to the number `k` on the other side. -/
theorem offsetMove_expands {p : Polynomial} {n k : Int} (offset : IsWhole (p.coefficient 0) n)
    (r : (leaf c).Expands v (C k)) (unrounded : Exact (k - n)) :
    (fork { token := (offsetMove p).1 } (leaf c) (value (.constant (offsetMove p).2))).Expands v
    (C (k - n)) := by
  by_cases negative : n < 0
  · have sum : C k + C (-n) = (C (k - n) : ℤ[X]) := by rw [← Polynomial.C_add, Int.sub_eq_add_neg]
    rw [offsetMove, if_pos (offset.lt_zero.mpr negative), ← sum]
    exact inserted_expands .add rfl r (value_expands (.whole offset.neg rfl)) trivial fun i => by
      rw [sum]
      exact exact_C unrounded i
  · have difference : C k - C n = (C (k - n) : ℤ[X]) := (Polynomial.C_sub ..).symm
    rw [offsetMove, if_neg (mt offset.lt_zero.mp negative), ← difference]
    exact inserted_expands .subtract rfl r (value_expands (.whole offset rfl)) trivial fun i => by
      rw [difference]
      exact exact_C unrounded i

/-- A number over the slope. -/
theorem divideSlope_reads {m k : Int} {x : Float} (slope : m ≠ 0) (divisor : IsWhole x m)
    (r : (leaf c).Reads (some (k : Rat))) (small : Exact k) :
    (fork { token := .inserted .divide "/" } (leaf c) (value (.constant x))).Reads
      (some (k / m)) := by
  have nonzero : (m : Rat) ≠ 0 := by exact_mod_cast slope
  have quotient : (some (k : Rat)).bind (fun p' => (some (m : Rat)).bind fun q' =>
      Operation.divide.rational? p' q') = some (k / m : Rat) := by
    simp [Operation.rational?, nonzero]
  rw [← quotient]
  refine @Reads.operator _ _ _ .divide _ _ rfl rfl rfl rfl r (.number rfl rfl rfl (.whole divisor rfl)) ?_
  rintro _ _ ⟨⟩ ⟨⟩
  have second := divisor.small
  simpa [Operation.Fits, Exact] using ⟨small, second⟩

theorem Expands.quantity {f : ℤ[X]} (expands : (leaf c).Expands v f) :
    ∃ u, c.value = some u ∧ u.Expands v f := by
  cases expands with
  | value call deferred value expands => exact ⟨_, value, expands⟩

/-- A number stands for a rational number too. -/
theorem Expands.number {k : Int} (expands : (leaf c).Expands v (C k)) :
    (leaf c).Reads (some (k : Rat)) ∧ Exact k := by
  cases expands with
  | value call deferred value expands =>
    cases expands with
    | proper letter spells positive => simp at positive
    | whole whole flat =>
      obtain rfl := Polynomial.C_injective flat
      exact ⟨.number call deferred value (.whole whole rfl), whole.small⟩

/-- Numbers are what the isolation looks for on the right. -/
theorem Reads.isConstant {q : Rat} (reads : (leaf c).Reads (some q)) :
    c.value.any Quantity.isConstant = true := by
  cases reads with
  | number call deferred value isShown =>
    rw [value]
    cases isShown <;> rfl

/-- The right side holds the letter: everything goes to the left. -/
theorem isolate_over {f g : ℤ[X]} {m n : Int} (equation : a.Equation) (l : (leaf b).Expands v f)
    (r : (leaf c).Expands v g) (positive : 0 < g.natDegree) (linear : f - g = C m * X + C n)
    (slope : m ≠ 0) (first : Exact m) (second : Exact n) :
    ((fork a (leaf b) (leaf c)).isolate).Solves v (-n / m) := by
  obtain ⟨u, value', expands⟩ := r.quantity
  have nonconstant : u.isConstant = false := by
    cases expands with
    | whole value flat => simp [flat] at positive
    | proper letter spells positive => exact (Quantity.value_polynomial spells positive).2
  have moved : (fork a (leaf b) (leaf c)).isolate = moveOver a (leaf b) (leaf c) := by
    simp [isolate, value', nonconstant]
  have difference : (fork { token := .inserted .minus "-" } (leaf b) (leaf c)).Expands v (f - g) :=
    inserted_expands .subtract rfl l r trivial fun i => by
      rw [linear]
      exact exact_linear first second i
  rw [moved]
  exact .sides equation difference (value_expands (.whole .zero rfl))
    (by rw [Polynomial.C_0, sub_zero, linear]) slope first second rfl

/-- The letter against a number is solved. -/
theorem isolate_bare {q : Rat} (equation : a.Equation) (l : (leaf b).Expands v X)
    (r : (leaf c).Reads (some q)) :
    ((fork a (leaf b) (leaf c)).isolate).Solves v q := by
  obtain ⟨u, value, expands⟩ := l.quantity
  have letter : (X : ℤ[X]) = C 1 * X + C 0 := by rw [Polynomial.C_0, Polynomial.C_1, one_mul, add_zero]
  rw [letter] at expands
  obtain ⟨p, rfl, _, degree, offset, slope⟩ := expands.linear Int.one_ne_zero
  have line : (leaf b).linear? = some p := by simp [linear?, value, degree]
  have zero : (p.coefficient 0 != 0.0) = false := by rw [bne, offset.beq_zero]; rfl
  have one : (p.coefficient 1 != 1.0) = false := by rw [bne, slope.beq_one]; rfl
  have constant := r.isConstant
  have settled : (fork a (leaf b) (leaf c)).isolate = (fork a (leaf b) (leaf c)).settleEquation := by
    simp only [isolate, top_leaf, constant, line, zero, one, Bool.not_true, Bool.false_eq_true, if_false]
  rw [settled]
  exact .solved equation l r

/-- Against a number the offset is moved, then the slope is divided by, as far as there are any. -/
theorem isolate_number {m d k : Int} (equation : a.Equation) (l : (leaf b).Expands v (C m * X + C d))
    (r : (leaf c).Expands v (C k)) (slope : m ≠ 0) (first : Exact m) (second : Exact (k - d)) :
    ((fork a (leaf b) (leaf c)).isolate).Solves v ((k - d : Int) / m) := by
  obtain ⟨right, small⟩ := r.number
  have constant := right.isConstant
  obtain ⟨w, value, expands⟩ := l.quantity
  obtain ⟨p, rfl, letter, degree, offset, factor⟩ := expands.linear slope
  have line : (leaf b).linear? = some p := by simp [linear?, value, degree]
  by_cases centred : d = 0
  · subst centred
    have zero : (p.coefficient 0 != 0.0) = false := by rw [bne, offset.beq_zero]; rfl
    rw [Int.sub_zero]
    by_cases unit : m = 1
    · subst unit
      rw [Polynomial.C_0, Polynomial.C_1, one_mul, add_zero] at l
      rw [Int.cast_one, div_one]
      exact isolate_bare equation l right
    · have other : (p.coefficient 1 != 1.0) = true := by
        rw [bne, factor.beq_one, Bool.not_eq_true', beq_eq_false_iff_ne]
        exact unit
      have divided : (fork a (leaf b) (leaf c)).isolate = divideSlope a (leaf c) p := by
        simp only [isolate, top_leaf, constant, line, zero, other, Bool.not_true,
          Bool.false_eq_true, if_false, if_true]
      have bare := Quantity.monomial_expands IsWhole.one Int.one_ne_zero v
      rw [Polynomial.C_1, one_mul] at bare
      rw [divided, divideSlope, letter]
      exact .bare equation (value_expands bare) (divideSlope_reads slope factor right small)
  · have away : (p.coefficient 0 != 0.0) = true := by
      rw [bne, offset.beq_zero, Bool.not_eq_true', beq_eq_false_iff_ne]
      exact centred
    have moved : (fork a (leaf b) (leaf c)).isolate = moveOffset a (leaf c) p := by
      simp only [isolate, top_leaf, constant, line, away, Bool.not_true, Bool.false_eq_true,
        if_false, if_true]
    have term := value_expands (Quantity.monomial_expands factor slope v)
    have difference : C m * X - C (k - d) = (C m * X + C (-(k - d)) : ℤ[X]) := by
      rw [Polynomial.C_neg, sub_eq_add_neg]
    rw [moved, moveOffset, letter]
    exact .sides equation term (offsetMove_expands offset r second) difference slope first second.neg
      (by rw [Int.cast_neg, neg_neg])

/-- One move in an equation over values. -/
theorem isolate_sides {f g : ℤ[X]} {m n : Int} (equation : a.Equation) (l : (leaf b).Expands v f)
    (r : (leaf c).Expands v g) (linear : f - g = C m * X + C n) (slope : m ≠ 0) (first : Exact m)
    (second : Exact n) :
    ((fork a (leaf b) (leaf c)).isolate).Solves v (-n / m) := by
  by_cases positive : 0 < g.natDegree
  · exact isolate_over equation l r positive linear slope first second
  · obtain ⟨k, rfl⟩ : ∃ k, g = C k := ⟨_, Polynomial.eq_C_of_natDegree_eq_zero (by omega)⟩
    have side : f = C m * X + C (n + k) := by rw [Polynomial.C_add, ← add_assoc, ← linear, sub_add_cancel]
    have turned : k - (n + k) = -n := by omega
    subst side
    have solved := isolate_number equation l r slope first (by rw [turned]; exact second.neg)
    rwa [turned, Int.cast_neg] at solved

namespace Solves

variable {q : Rat} {x : Tree Mark}

theorem isPending_equation (equation : a.Equation) (left right : Tree Mark) :
    (fork a left right).isPending := by
  simp [Tree.isPending, isLeaf, Label.isSettled, equation.reduced, equation.deferred]

/-- An equation that is not settled goes on. -/
theorem next_equation (equation : a.Equation) (left right : Tree Mark) :
    (fork a left right).next? ≠ none := by
  have pending := isPending_equation equation left right
  rw [next?, if_pos pending, Ne, step_none_iff, idle_fork]
  simp [pending]

theorem reduceTop_equation (equation : a.Equation) (left right : Tree Mark) :
    (fork a left right).reduceTop = .ok (fork a left right).isolate := by
  simp [reduceTop, isLeaf, equation.kind]

/-- A solved equation is at rest. -/
theorem idle_solved (l : (leaf b).Expands v X) (r : (leaf c).Reads (some q)) (a : Mark) :
    ((fork a (leaf b) (leaf c)).settleEquation).Idle := by
  have first : (leaf b).isPending = false := by
    cases l with
    | value call deferred value expands => simp [Tree.isPending, isLeaf, Label.isDerivative, call]
  have second : (leaf c).isPending = false := by simp [r.isPending, isLeaf]
  exact idle_fork.mpr ⟨idle_leaf.mpr first, idle_leaf.mpr second, rfl⟩

/-- A reduction never fails, and goes on to an equation with the same solution. -/
theorem step (solves : x.Solves v q) {result : Except ComputationError (Tree Mark)}
    (stepped : x.step? = some result) :
    ∃ y, result = .ok y ∧ y.Solves v q := by
  cases solves with
  | @sides a left right f g m n equation l r linear slope first second solution =>
    rcases step_fork_cases stepped with ⟨next, here, rfl⟩ | ⟨next, here, rfl⟩ | ⟨restl, restr, _, rfl⟩
    · obtain ⟨y, rfl, kept⟩ := l.step here
      exact ⟨_, rfl, .sides equation kept r linear slope first second solution⟩
    · obtain ⟨y, rfl, kept⟩ := r.step here
      exact ⟨_, rfl, .sides equation l kept linear slope first second solution⟩
    · obtain ⟨b, _, rfl, _⟩ := l.of_idle restl
      obtain ⟨c, _, rfl, _⟩ := r.of_idle restr
      rw [solution]
      exact ⟨_, reduceTop_equation equation _ _, isolate_sides equation l r linear slope first second⟩
  | @bare a left right equation l r =>
    rcases step_fork_cases stepped with ⟨next, here, rfl⟩ | ⟨next, here, rfl⟩ | ⟨restl, restr, _, rfl⟩
    · obtain ⟨y, rfl, kept⟩ := l.step here
      exact ⟨_, rfl, .bare equation kept r⟩
    · have kept := r.step here
      cases next with
      | error error => exact absurd kept.2 (by simp)
      | ok y => exact ⟨_, rfl, .bare equation l kept⟩
    · obtain ⟨b, _, rfl, _⟩ := l.of_idle restl
      obtain ⟨c, _, _, rfl, _⟩ := r.of_idle restr
      exact ⟨_, reduceTop_equation equation _ _, isolate_bare equation l r⟩
  | @solved a b c equation l r =>
    rw [(step_none_iff _).mpr (idle_solved l r a)] at stepped
    cases stepped

theorem next (solves : x.Solves v q) {result : Except ComputationError (Tree Mark)}
    (goes : x.next? = some result) :
    ∃ y, result = .ok y ∧ y.Solves v q := by
  unfold next? at goes
  split at goes
  · exact solves.step goes
  · simp at goes

/-- An equation without a next reduction is solved. -/
theorem of_done (solves : x.Solves v q) (stops : x.next? = none) :
    ∃ a b c, a.Equation ∧ (leaf b).Expands v X ∧ (leaf c).Reads (some q) ∧
      x = (fork a (leaf b) (leaf c)).settleEquation := by
  cases solves with
  | sides equation l r linear slope first second solution => exact absurd stops (next_equation equation _ _)
  | bare equation l r => exact absurd stops (next_equation equation _ _)
  | solved equation l r => exact ⟨_, _, _, equation, l, r, rfl⟩

/-- A run ends in the solved equation. -/
theorem run {x : Tree Mark} (solves : x.Solves v q) :
    x.run.2 = .ok () ∧ ∃ a b c, a.Equation ∧ (leaf b).Expands v X ∧ (leaf c).Reads (some q) ∧
      x.reduct = (fork a (leaf b) (leaf c)).settleEquation := by
  cases goes : x.next? with
  | none =>
    rw [reduct, run_done goes]
    exact ⟨rfl, solves.of_done goes⟩
  | some result =>
    obtain ⟨y, rfl, later⟩ := solves.next goes
    rw [reduct_goes goes, run_goes goes]
    exact later.run
termination_by x.effort
decreasing_by exact effort_next goes

end Solves

/-- A solved equation is written `v = q`. -/
theorem text_solved {v : Char} {q : Rat} {a b c : Mark} (equation : a.Equation) (l : (leaf b).Expands v X)
    (r : (leaf c).Reads (some q)) :
    ((fork a (leaf b) (leaf c)).settleEquation).text = v.toString ++ " = " ++ toString q := by
  have left : (leaf b).rendered.text = v.toString := by
    cases l with
    | value call deferred value expands =>
      rw [rendered, leafRendered, call, value]
      cases expands with
      | whole value flat =>
        have degree := congrArg Polynomial.natDegree flat
        simp at degree
      | proper letter spells positive => exact letter ▸ Polynomial.text_letter spells
  have right : (leaf c).rendered.text = toString q := by
    cases r with
    | number call deferred value isShown =>
      rw [rendered, leafRendered, call, value]
      exact isShown.text
  have sign : (Token.Kind.equals == .times) = false := rfl
  simp only [settleEquation, mapTop, text, rendered, innerRendered, equation.call, operatorRendered,
    equation.unary, isUnit, equation.kind, sign, Bool.false_and, Bool.false_eq_true,
    if_false] at left right ⊢
  rw [left, right]

/-- Preparing an equation prepares its sides. -/
theorem prepare_equation {v : Char} {a : Mark} {left right : Tree Mark}
    (kind : a.token.kind = .equals) (call : a.call = none) (l : left.Expandable v)
    (r : right.Expandable v) :
    (fork a left right).prepare =
    (fork a left.recognize.attachQuantities right.recognize.attachQuantities, .ok ()) := by
  have none : (fork a left right).recognized? = none := by
    have monomial : (fork a left right).monomial? = none := by
      unfold monomial?
      split
      · next same =>
        cases same
        simp [kind]
      · rfl
    simp [recognized?, monomial, isLeaf]
  simp only [prepare, Tree.foldFactorials, l.foldFactorials, r.foldFactorials, recognize, none,
    Tree.attachQuantities]
  rw [attachCall_unmarked (x := fork a left.recognize right.recognize) call, top_fork]

/-- The trace of an equation ends with its solution. -/
theorem trace_solved {v : Char} {q : Rat} {x y : Tree Mark} (prepared : x.prepare = (y, .ok ()))
    (solves : y.Solves v q) :
    x.trace.ended = .ok () ∧ Exact q.num ∧ Exact q.den ∧
      x.trace.lines.getLast? = some (v.toString ++ " = " ++ toString q) := by
  obtain ⟨ended, a, b, c, equation, l, r, last⟩ := solves.run
  have plain : y.reduct.simplifyRoot = .ok y.reduct := by
    rw [last]
    rfl
  have stop : x.trace.ended = .ok () := by simp [Tree.trace, prepared, reduceFully, ended, plain]
  have left : x.trace.tree = (fork a (leaf b) (leaf c)).settleEquation := by
    rw [← last]
    simp [Tree.trace, prepared, reduceFully, ended, plain]
  have unrounded : Exact q.num ∧ Exact q.den := by
    cases r with
    | number call deferred value isShown => exact isShown.exact
  exact ⟨stop, unrounded.1, unrounded.2, by rw [trace_last stop, left, text_solved equation l r]⟩

end Tree

namespace Formula

open Expression

theorem solvedSide_at {v : Char} (low : 'a' ≤ v) (high : v ≤ 'z') (side : String) :
    solvedSide? (v.toString ++ " = " ++ side) = some side := by
  have halves : Text.cut? " = " (v.toString ++ " = " ++ side) = some (v.toString, side) := by
    refine Text.cut_mark (show " = ".toList = [' ', '=', ' '] by decide) fun member => ?_
    obtain rfl : ' ' = v := by simpa [Char.toString] using member
    exact absurd low (by decide)
  rw [solvedSide?, halves]
  simp [Char.toString, low, high]

/-- An equation between expandable sides is prepared to one between what they expand to, and its
evaluation is its trace. -/
theorem evaluate_equation {text : String} {e : Formula}
    {a : Mark} {left right : Tree Mark} {v : Char} (parsed : Expression.ofText text = .ok e)
    (displays : e.Displays (.fork a left right)) (kind : a.token.kind = .equals)
    (call : a.call = none) (l : left.Expandable v) (r : right.Expandable v)
    (exactl : left.ExpandsExactly) (exactr : right.ExpandsExactly) :
    a.Equation ∧ ∃ left' right' : Tree Mark,
      (Tree.fork a left right).prepare = (.fork a left' right', .ok ()) ∧ left'.Expands v left.expansion ∧
        right'.Expands v right.expansion ∧
        (evaluate e).steps.back? = (Tree.fork a left right).trace.lines.getLast? ∧
        (evaluate e).value = (Tree.fork a left right).trace.value := by
  obtain ⟨y, built, displays', formed⟩ := displays_of_parsed parsed
  obtain rfl := displays.unique displays'
  obtain ⟨fresh, freshl, freshr⟩ := Tree.fresh_fork.mp (Tree.ofText_grammatical built).fresh
  have unary : a.unary = false := by
    cases sign : a.unary with
    | false => rfl
    | true => simpa [kind] using fresh.unary sign
  obtain ⟨_, lines, value⟩ := evaluate_eq displays formed
  exact ⟨⟨kind, call, unary, fresh.reduced, fresh.deferred⟩, _, _, Tree.prepare_equation kind call l r,
    l.attachQuantities exactl freshl, r.attachQuantities exactr freshr,
    by rw [← Array.getLast?_toList, lines], value⟩

/-- An equation in one letter is solved when its sides differ by `m * v + n` once they are expanded, and the
whole numbers on the way are represented without loss. The last line shows the solution in lowest terms, and
the value is its quotient. -/
theorem evaluate_linear {text : String} {e : Formula} {a : Mark} {left right : Tree Mark} {v : Char}
    {m n : Int} (low : 'a' ≤ v) (high : v ≤ 'z') (parsed : Expression.ofText text = .ok e)
    (displays : e.Displays (.fork a left right)) (kind : a.token.kind = .equals)
    (call : a.call = none) (l : left.Expandable v) (r : right.Expandable v)
    (linear : left.expansion - right.expansion = C m * X + C n) (slope : m ≠ 0)
    (exactl : left.ExpandsExactly) (exactr : right.ExpandsExactly) (exactm : Exact m)
    (exactn : Exact n) :
    (evaluate e).steps.back? = some (v.toString ++ " = " ++ toString (-n / m : Rat)) ∧
      (evaluate e).value = .ok (Decimal.ofInt (-n / m : Rat).num / Decimal.ofInt (-n / m : Rat).den) := by
  obtain ⟨equation, left', right', prepared, l', r', last, value⟩ :=
    evaluate_equation parsed displays kind call l r exactl exactr
  have solves := Tree.Solves.sides equation l' r' linear slope exactm exactn rfl
  obtain ⟨ended, num, den, lines⟩ := Tree.trace_solved prepared solves
  rw [value, last]
  refine ⟨lines, ?_⟩
  simp only [Tree.Result.value, ended, lines, Option.getD_some,
    valueOfLine_side num den (solvedSide_at low high _), bind, Except.bind, Except.mapError]

end Formula

namespace Tree

/-- The left side of `(x-1)^2=x^2+2`. -/
def shiftedSquare : Tree Mark :=
  fork { token := ⟨.power, "^", some 5⟩ }
    (fork { token := ⟨.minus, "-", some 2⟩ }
    (lettered ⟨.letter, "x", some 1⟩ (.inserted .power "^") (.inserted .number "1"))
      (leaf { token := ⟨.number, "1", some 3⟩ }))
    (leaf { token := ⟨.number, "2", some 6⟩ })

/-- The right side of `(x-1)^2=x^2+2`. -/
def raisedSquare : Tree Mark :=
  fork { token := ⟨.plus, "+", some 11⟩ }
    (lettered ⟨.letter, "x", some 8⟩ ⟨.power, "^", some 9⟩ ⟨.number, "2", some 10⟩)
    (leaf { token := ⟨.number, "2", some 12⟩ })

theorem shiftedSquare_expandsTo : shiftedSquare.ExpandsTo 'x' ((C 1 * X + C (-1)) ^ 2) := by
  have isOne : IsLiteral "1" := isLiteral_digit '1' (by simp) rfl
  have isTwo : IsLiteral "2" := isLiteral_digit '2' (by simp) rfl
  have small := exact_linear (m := 1) (n := -1) (by decide) (by decide)
  have difference : Operation.subtract.expand (X ^ 1) (C 1) = C 1 * X + C (-1) := by
    rw [Operation.expand, Polynomial.C_neg, Polynomial.C_1, pow_one, one_mul, sub_eq_add_neg]
  have square : Operation.power.expand (C 1 * X + C (-1)) (C 2) = (C 1 * X + C (-1)) ^ 2 := by
    rw [Operation.expand, Polynomial.coeff_C_zero]
    rfl
  have shifted : (fork { token := ⟨.minus, "-", some 2⟩ }
      (lettered ⟨.letter, "x", some 1⟩ (.inserted .power "^") (.inserted .number "1"))
      (leaf { token := ⟨.number, "1", some 3⟩ } : Tree Mark)).ExpandsTo 'x' (C 1 * X + C (-1)) := by
    rw [← difference] at small ⊢
    exact .operator rfl rfl (lettered_expandsTo rfl (by simp) rfl rfl isOne (n := 1) rfl (by decide))
      (.number rfl isOne rfl (by decide)) trivial small
  rw [← square]
  refine .operator rfl rfl shifted (.number rfl isTwo rfl (by decide)) ⟨2, by decide, rfl⟩ fun n same => ?_
  obtain rfl : 2 = n := by exact_mod_cast Polynomial.C_injective same
  have degree := Polynomial.natDegree_linear (a := (1 : Int)) (b := -1) (by decide)
  refine ⟨fun a flat => ?_, fun _ m below => ?_⟩
  · rw [flat, Polynomial.natDegree_C] at degree
    cases degree
  · have height := natAbs_coeff_linear 1 (-1)
    obtain rfl | rfl : m = 0 ∨ m = 1 := by omega
    · refine exactProduct_of_small (d := 0) (a := 1) (b := 1) (by simp) (fun i => ?_) height (by decide)
      rw [pow_zero, Polynomial.coeff_one]
      split <;> decide
    · rw [pow_one]
      exact exactProduct_of_small (d := 1) (a := 1) (b := 1) degree.le height height (by decide)

theorem raisedSquare_expandsTo : raisedSquare.ExpandsTo 'x' (X ^ 2 + C 2) := by
  have isTwo : IsLiteral "2" := isLiteral_digit '2' (by simp) rfl
  have sum : Operation.add.expand (X ^ 2) (C 2) = X ^ 2 + C 2 := rfl
  rw [← sum]
  refine .operator rfl rfl (lettered_expandsTo rfl (by simp) rfl rfl isTwo (n := 2) rfl (by decide))
    (.number rfl isTwo rfl (by decide)) trivial fun i => ?_
  rw [Polynomial.coeff_add, Polynomial.coeff_X_pow, Polynomial.coeff_C]
  split <;> split <;> decide

end Tree

namespace Formula

open Expression

/-- A square on the left, whose second power cancels against the right. -/
theorem evaluate_linear_square : ∃ (e : Formula) (a : Mark) (left right : Tree Mark),
    Expression.ofText "(x-1)^2=x^2+2" = .ok e ∧ e.Displays (.fork a left right) ∧
      a.token.kind = .equals ∧ a.call = none ∧
      left.Expandable 'x' ∧ right.Expandable 'x' ∧ left.ExpandsExactly ∧ right.ExpandsExactly ∧
      left.expansion - right.expansion = C (-2) * X + C (-1) ∧
      (evaluate e).steps.back? = some "x = -1/2" ∧
      (evaluate e).value = .ok (Decimal.ofInt (-1) / Decimal.ofInt 2) := by
  have built : (Tree.ofText "(x-1)^2=x^2+2" : Except GrammarError (Tree Mark)) =
      .ok (.fork { token := ⟨.equals, "=", some 7⟩ } .shiftedSquare .raisedSquare) := by cbv
  have parses : (Expression.ofText "(x-1)^2=x^2+2" : Except GrammarError Formula).isOk := by cbv
  cases parsed : (Expression.ofText "(x-1)^2=x^2+2" : Except GrammarError Formula) with
  | error error => simp [parsed, Except.isOk, Except.toBool] at parses
  | ok e =>
    obtain ⟨y, built', displays, _⟩ := displays_of_parsed parsed
    obtain rfl := Except.ok.inj (built'.symm.trans built)
    have l := Tree.shiftedSquare_expandsTo
    have r := Tree.raisedSquare_expandsTo
    have linear : Tree.shiftedSquare.expansion - Tree.raisedSquare.expansion = C (-2) * X + C (-1) := by
      rw [l.value, r.value]
      simp only [map_neg, map_one, map_ofNat]
      ring
    have solved :=
      evaluate_linear (v := 'x') (m := -2) (n := -1) (by decide) (by decide) parsed displays rfl rfl
      l.expandable r.expandable linear (by decide) l.unrounded r.unrounded (by decide) (by decide)
    have solution : (-(-1 : Int) / (-2 : Int) : Rat) = -1 / 2 := by norm_num
    have shown : 'x'.toString ++ " = " ++ toString (-1 / 2 : Rat) = "x = -1/2" := by decide +kernel
    have terms : (-1 / 2 : Rat).num = -1 ∧ (-1 / 2 : Rat).den = 2 := by decide +kernel
    rw [solution, shown, terms.1, terms.2] at solved
    exact ⟨e, _, _, _, rfl, displays, rfl, rfl, l.expandable, r.expandable, l.unrounded,
      r.unrounded, linear, solved⟩

end Formula

end Stepwise

end
