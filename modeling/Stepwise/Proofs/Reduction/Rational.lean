import Stepwise.Proofs.Reduction.Again
import Stepwise.Proofs.Text.Cut
import Stepwise.Proofs.Tree.Arithmetic

/-! Arithmetic on whole numbers is evaluated exactly. Main statement: a text of whole numbers, operators
and brackets is reduced to the rational number that its tree stands for, in lowest terms, or fails
because some divisor is zero. -/
namespace Stepwise

open Decimal (IsWhole)

theorem mem_toString {n : Int} {c : Char} (member : c ∈ (toString n).toList) : c.isDigit ∨ c = '-' := by
  have digits (m : Nat) (member : c ∈ (toString m).toList) : c.isDigit := by
    have text : (toString m).toList = Nat.toDigits 10 m := Nat.toList_repr
    rw [text] at member
    exact Nat.isDigit_of_mem_toDigits (by omega) (by omega) member
  rw [Decimal.toString_int] at member
  split at member
  · rw [String.toList_append] at member
    rcases List.mem_append.mp member with minus | member
    · exact .inr (by simpa using minus)
    · exact .inl (digits _ member)
  · exact .inl (digits _ member)

theorem not_mem_toString (n : Int) {c : Char} (digit : c.isDigit = false) (sign : c ≠ '-') :
    c ∉ (toString n).toList :=
  fun member => by
    rcases mem_toString member with h | h
    · simp [digit] at h
    · exact sign h

theorem not_blank_toString (n : Int) : ∀ c ∈ (toString n).toList, Text.isBlank c = false := by
  intro c member
  rcases mem_toString member with digit | rfl
  · simp [Char.isDigit, UInt32.le_iff_toNat_le] at digit
    obtain ⟨low, high⟩ := digit
    have low : 48 ≤ c.toNat := low
    have high : c.toNat ≤ 57 := high
    simp [Text.isBlank]
    omega
  · rfl

theorem toString_rat (r : Rat) :
    toString r = if r.den = 1 then toString r.num else toString r.num ++ "/" ++ toString (r.den : Int) := by
  simp only [toString]
  split <;> rfl

namespace Formula

theorem solvedSide_of_no_blank {line : String} (absent : ' ' ∉ line.toList) :
    solvedSide? line = some line := by
  rw [solvedSide?, Text.cut_none (show " = ".toList = [' ', '=', ' '] by decide) absent]

/-- A rational number is read back from how it is written, alone or on the right of a solved equation. -/
theorem valueOfLine_side {line : String} {r : Rat} (num : Exact r.num) (den : Exact r.den)
    (side : solvedSide? line = some (toString r)) :
    valueOfLine line = .ok (Decimal.ofInt r.num / Decimal.ofInt r.den) := by
  have slash (n : Int) : '/' ∉ (toString n).toList := not_mem_toString n rfl (by decide)
  rw [toString_rat] at side
  by_cases unit : r.den = 1
  · have one : Decimal.ofInt ((1 : Nat) : Int) = 1.0 := by decide +kernel
    rw [if_pos unit] at side
    rw [unit, one, (Decimal.ofInt_whole num).div_one, valueOfLine, side]
    have whole : Text.cut? "/" (toString r.num) = none :=
      Text.cut_none (show "/".toList = ['/'] by decide) (slash _)
    simp only [whole, Text.trim_absent (not_blank_toString _), Decimal.read_toString num]
  · rw [if_neg unit] at side
    have halves : Text.cut? "/" (toString r.num ++ "/" ++ toString (r.den : Int)) =
        some (toString r.num, toString (r.den : Int)) :=
        Text.cut_mark (show "/".toList = ['/'] by decide) (slash _)
    have bare : withoutBrackets (toString (r.den : Int)) = toString (r.den : Int) := by
      rw [withoutBrackets, Text.stripped_absent fun c member => ?_, String.ofList_toList]
      simp only [Bool.or_eq_false_iff, decide_eq_false_iff_not]
      exact ⟨fun same => not_mem_toString _ rfl (by decide) (same ▸ member),
        fun same => not_mem_toString _ rfl (by decide) (same ▸ member)⟩
    have nonzero : (Decimal.ofInt r.den == 0.0) = false := by
      have := r.den_pos
      rw [(Decimal.ofInt_whole den).beq_zero, beq_eq_false_iff_ne]
      omega
    rw [valueOfLine, side]
    simp only [halves, Text.trim_absent (not_blank_toString _), bare, Decimal.read_toString num,
      Decimal.read_toString den, bind, Except.bind, nonzero]
    rfl

theorem not_blank_rat (r : Rat) : ' ' ∉ (toString r).toList := by
  have blank (n : Int) : ' ' ∉ (toString n).toList := not_mem_toString n rfl (by decide)
  rw [toString_rat]
  split
  · exact blank _
  · rw [String.toList_append, String.toList_append, List.mem_append, List.mem_append]
    simp only [blank, or_false, false_or]
    decide

theorem valueOfLine_toString {r : Rat} (num : Exact r.num) (den : Exact r.den) :
    valueOfLine (toString r) = .ok (Decimal.ofInt r.num / Decimal.ofInt r.den) :=
  valueOfLine_side num den (solvedSide_of_no_blank (not_blank_rat r))

end Formula

namespace Tree

/-- The tree is a number or an operator over such trees, and stands for the rational number, if it does not
divide by zero. No operator is settled, and nothing is deferred. -/
inductive Reads : Tree Mark → Option Rat → Prop
  | number {a : Mark} {v : Quantity} {r : Rat} (call : a.call = none) (deferred : a.deferred = false)
      (value : a.value = some v) (isShown : v.Shows r) : Reads (leaf a) (some r)
  | operator {a : Mark} {left right : Tree Mark} {operation : Operation} {p q : Option Rat}
      (call : a.call = none)
      (reduced : a.reduced = false) (deferred : a.deferred = false)
      (kind : Operation.ofKind? a.token.kind = some operation) (l : Reads left p) (r : Reads right q)
      (fits : ∀ p' q', p = some p' → q = some q' → operation.Fits p' q') :
      Reads (fork a left right) (p.bind fun p' => q.bind fun q' => operation.rational? p' q')

def Yields (r : Option Rat) : Except ComputationError (Tree Mark) → Prop
  | .ok y => Reads y r
  | .error error => error = .zeroDenominator ∧ r = none

namespace Reads

variable {x : Tree Mark} {r : Option Rat}

theorem isPending (reads : Reads x r) : x.isPending = !x.isLeaf := by
  cases reads with
  | number call deferred value isShown => simp [Tree.isPending, isLeaf, Label.isDerivative, call]
  | operator call reduced deferred kind l r fits =>
    simp [Tree.isPending, isLeaf, Label.isSettled, reduced, deferred]

/-- Only a number is at rest. -/
theorem of_idle (reads : Reads x r) (idle : x.Idle) :
    ∃ a v q, x = leaf a ∧ a.call = none ∧ a.value = some v ∧ v.Shows q ∧ r = some q := by
  have pending := reads.isPending
  cases reads with
  | number call deferred value isShown => exact ⟨_, _, _, rfl, call, value, isShown, rfl⟩
  | operator call reduced deferred kind l r fits => simp [(idle_fork.mp idle).2.2, isLeaf] at pending

theorem not_deferred (reads : Reads x r) : ∀ a ∈ x.flatten, a.deferred = false := by
  induction reads with
  | number call deferred value isShown => simpa [flatten] using deferred
  | operator call reduced deferred kind l r fits ihl ihr =>
    intro b member
    rcases List.mem_cons.mp member with rfl | member
    · exact deferred
    · rcases List.mem_append.mp member with member | member
      · exact ihl b member
      · exact ihr b member

/-- An operator over numbers becomes its exact result, or divides by zero. -/
theorem reduceTop (reads : Reads x r) (rested : x.Rested) (inner : x.isLeaf = false) :
    Yields r x.reduceTop := by
  cases reads with
  | number call deferred value isShown => simp [isLeaf] at inner
  | @operator a left right operation p q call reduced deferred kind l r fits =>
    obtain ⟨b, v, p, rfl, _, value, isShown, rfl⟩ := l.of_idle rested.1
    obtain ⟨c, w, q, rfl, _, value', isShown', rfl⟩ := r.of_idle rested.2
    simp only [Option.bind_some]
    have equation : a.token.kind ≠ .equals := fun equals => by simp [equals, Operation.ofKind?] at kind
    have applied := Quantity.apply_shows isShown isShown' (fits p q rfl rfl)
    have plain (u : Quantity) : settled a u = leaf (a.collapse u) := by
      simp [settled, Label.termKeyword?, Label.isDerivative, call]
    simp only [Tree.reduceTop, isLeaf, Bool.false_eq_true, if_false, top_fork, equation,
      combination, operands, top_leaf, kind, value, value']
    cases result : operation.rational? p q with
    | none =>
      simp only [result] at applied
      simp only [applied]
      exact ⟨rfl, rfl⟩
    | some s =>
      simp only [result] at applied
      obtain ⟨u, applied, isShown⟩ := applied
      simp only [applied, plain]
      exact number (a := a.collapse u) call rfl rfl isShown

/-- A reduction goes on to a tree that stands for the same number, or fails because there is none. -/
theorem step (reads : Reads x r) {result : Except ComputationError (Tree Mark)}
    (stepped : x.step? = some result) :
    Yields r result := by
  induction reads generalizing result with
  | number call deferred value isShown =>
    obtain ⟨pending, _⟩ := step_leaf_cases stepped
    simp [Tree.isPending, isLeaf, Label.isDerivative, call] at pending
  | @operator a left right operation p q call reduced deferred kind l r fits ihl ihr =>
    rcases step_fork_cases stepped with ⟨next, here, rfl⟩ | ⟨next, here, rfl⟩ | ⟨first, second, pending, rfl⟩
    · have kept := ihl here
      cases next with
      | error error => exact ⟨kept.1, by rw [kept.2]; rfl⟩
      | ok y => exact .operator call reduced deferred kind kept r fits
    · have kept := ihr here
      cases next with
      | error error => exact ⟨kept.1, by rw [kept.2]; cases p <;> rfl⟩
      | ok y => exact .operator call reduced deferred kind l kept fits
    · exact (operator call reduced deferred kind l r fits).reduceTop ⟨first, second⟩ rfl

theorem next (reads : Reads x r) {result : Except ComputationError (Tree Mark)}
    (goes : x.next? = some result) :
    Yields r result := by
  unfold next? at goes
  split at goes
  · exact reads.step goes
  · simp at goes

/-- A tree without a next reduction is a number. -/
theorem of_done (reads : Reads x r) (stops : x.next? = none) :
    ∃ a v q, x = leaf a ∧ a.call = none ∧ a.value = some v ∧ v.Shows q ∧ r = some q := by
  unfold next? at stops
  split at stops
  · exact reads.of_idle ((step_none_iff x).mp stops)
  · next still =>
    have pending := reads.isPending
    cases reads with
    | number call deferred value isShown => exact ⟨_, _, _, rfl, call, value, isShown, rfl⟩
    | operator call reduced deferred kind l r fits => simp [still, isLeaf] at pending

/-- A run ends in the number, or because there is none. -/
theorem run {x : Tree Mark} (reads : Reads x r) :
    (x.run.2 = .error .zeroDenominator ∧ r = none) ∨
      x.run.2 = .ok () ∧ ∃ a v q, x.reduct = leaf a ∧ a.call = none ∧ a.value = some v ∧ v.Shows q ∧
      r = some q := by
  cases goes : x.next? with
  | none =>
    rw [reduct, run_done goes]
    exact .inr ⟨rfl, reads.of_done goes⟩
  | some result =>
    have kept := reads.next goes
    cases result with
    | error error =>
      rw [run_fails goes, kept.1]
      exact .inl ⟨rfl, kept.2⟩
    | ok y =>
      rw [reduct_goes goes, run_goes goes]
      have later : Reads y r := kept
      exact later.run
termination_by x.effort
decreasing_by exact effort_next goes

end Reads

namespace Arithmetic

variable {x : Tree Mark}

/-- Every node is a number or an operator. -/
theorem kinds (arithmetic : x.Arithmetic) :
    ∀ a ∈ x.flatten, a.token.kind = .number ∨ (Operation.ofKind? a.token.kind).isSome := by
  induction x with
  | leaf a => simp [flatten, arithmetic.2.1]
  | group a inner ih => exact arithmetic.elim
  | fork a left right ihl ihr =>
    obtain ⟨_, ⟨operation, kind, _⟩, l, r⟩ := arithmetic
    intro b member
    rcases List.mem_cons.mp member with rfl | member
    · exact .inr (by simp [kind])
    · exact (List.mem_append.mp member).elim (ihl l b) (ihr r b)

theorem foldFactorials (arithmetic : x.Arithmetic) : x.foldFactorials = (x, .ok ()) :=
  foldFactorials_absent fun a member factorial => by
    simpa [factorial, Operation.ofKind?] using arithmetic.kinds a member

/-- There is no letter to recognize. -/
theorem recognize (arithmetic : x.Arithmetic) : x.recognize = x :=
  recognize_absent fun a member letter => by simpa [letter, Operation.ofKind?] using arithmetic.kinds a member

theorem attachQuantities (arithmetic : x.Arithmetic) (fits : x.Fits) :
    Reads x.attachQuantities x.rational? := by
  induction x with
  | leaf a =>
    obtain ⟨fresh, kind, isLiteral⟩ := arithmetic
    obtain ⟨x, read, whole⟩ := isLiteral.read fits
    have call : a.call = none := by rw [fresh]
    have value : a.value = none := by rw [fresh]
    have number : a.attachNumber = a.collapse (.constant x) := by simp [Label.attachNumber, value, kind, read]
    rw [Tree.attachQuantities, number, attachCall_unmarked (x := leaf (a.collapse (.constant x))) call]
    exact Reads.number (a := a.collapse (.constant x)) call rfl rfl (.whole whole rfl)
  | group a inner ih => exact arithmetic.elim
  | fork a left right ihl ihr =>
    obtain ⟨fresh, ⟨operation, kind, _⟩, l, r⟩ := arithmetic
    obtain ⟨fitl, fitr, fit⟩ := fits
    have call : a.call = none := by rw [fresh]
    rw [Tree.attachQuantities, attachCall_unmarked (x := fork a left right) call, rational?, kind]
    exact .operator call (congrArg Label.reduced fresh) (congrArg Label.deferred fresh) kind
      (ihl l fitl) (ihr r fitr) fun p q first second => fit operation kind p first q second

/-- A prepared arithmetic tree stands for its rational number. -/
theorem prepare (arithmetic : x.Arithmetic) (fits : x.Fits) :
    ∃ y, x.prepare = (y, .ok ()) ∧ Reads y x.rational? := by
  refine ⟨_, ?_, arithmetic.attachQuantities fits⟩
  simp only [Tree.prepare, arithmetic.foldFactorials]
  rw [arithmetic.recognize]

/-- The trace shows the rational number last, or ends because some divisor is zero. -/
theorem trace (arithmetic : x.Arithmetic) (fits : x.Fits) :
    (x.trace.ended = .error .zeroDenominator ∧ x.rational? = none) ∨
      x.trace.ended = .ok () ∧ ∃ q, x.rational? = some q ∧ Exact q.num ∧ Exact q.den ∧
      x.trace.lines.getLast? = some (toString q) := by
  obtain ⟨y, prepared, reads⟩ := arithmetic.prepare fits
  rcases reads.run with ⟨ended, undefined⟩ | ⟨ended, a, v, q, last, call, value, isShown, defined⟩
  · exact .inl ⟨by simp [Tree.trace, prepared, reduceFully, ended], undefined⟩
  · have plain : y.reduct.simplifyRoot = .ok y.reduct := by simp [simplifyRoot, rootNumber?, last, call]
    have stop : x.trace.ended = .ok () := by simp [Tree.trace, prepared, reduceFully, ended, plain]
    have left : x.trace.tree = leaf a := by
      rw [← last]
      simp [Tree.trace, prepared, reduceFully, ended, plain]
    have text : x.trace.tree.text = toString q := by
      rw [left, text, rendered, leafRendered, call, value]
      exact isShown.text
    refine .inr ⟨stop, q, defined, isShown.exact.1, isShown.exact.2, ?_⟩
    rw [trace_last stop, text]

end Arithmetic

end Tree

namespace Formula

open Expression

def reducedBy (n : Nat) (e : Formula) : Formula :=
  ((Trace.opening (prepare e).1).reduceWhilePending n).1.formula

/-- Arithmetic on whole numbers that are represented without loss is exact. The last line shows the
number that the tree stands for in lowest terms, and the value is its quotient; a zero divisor is an
error. No node is ever deferred. -/
theorem evaluate_arithmetic {text : String} {e : Formula} {x : Tree Mark}
    (characters : ∀ c ∈ text.toList, Text.IsArithmetic c) (parsed : Expression.ofText text = .ok e)
    (displays : e.Displays x) (fits : x.Fits) :
    (x.DividesByZero → (evaluate e).value = .error (.computation .zeroDenominator)) ∧
      (¬ x.DividesByZero → ∃ q, x.rational? = some q ∧ (evaluate e).steps.back? = some (toString q) ∧
        (evaluate e).value = .ok (Decimal.ofInt q.num / Decimal.ofInt q.den)) ∧
      ∀ n id, id ∈ (reducedBy n e).preorder (reducedBy n e).root →
      ((reducedBy n e).node id).deferred = false := by
  obtain ⟨y, built, displays', formed⟩ := displays_of_parsed parsed
  obtain rfl := displays.unique displays'
  have arithmetic := Tree.ofText_arithmetic characters built
  obtain ⟨_, lines, value⟩ := evaluate_eq displays formed
  rw [value, ← Array.getLast?_toList, lines, ← Tree.rational_eq_none arithmetic]
  refine ⟨fun undefined => ?_, fun defined => ?_, fun n id member => ?_⟩
  · rcases arithmetic.trace fits with ⟨ended, _⟩ | ⟨_, q, reckoned, _⟩
    · simp [Tree.Result.value, ended, bind, Except.bind, Except.mapError]
    · simp [undefined] at reckoned
  · rcases arithmetic.trace fits with ⟨_, undefined⟩ | ⟨ended, q, reckoned, num, den, last⟩
    · exact absurd undefined defined
    · refine ⟨q, reckoned, last, ?_⟩
      simp [Tree.Result.value, ended, last, valueOfLine_toString num den, bind, Except.bind, Except.mapError]
  · obtain ⟨z, prepared, reads⟩ := arithmetic.prepare fits
    have opened : (prepare e).1.Displays z := by
      have shown := (prepare_eq displays formed).1
      rwa [prepared] at shown
    obtain ⟨w, shown, reads⟩ := reduceWhilePending_keeps (P := fun y => Tree.Reads y x.rational?)
      (fun _ _ reads goes => reads.next goes) reads (t := .opening (prepare e).1) opened n
    exact reads.not_deferred _ (shown.label_mem member)

/-- A sign, a bracket and a fraction on the way to the whole number `-5`. -/
theorem evaluate_arithmetic_fraction : ∃ (e : Formula) (x : Tree Mark),
    Expression.ofText "1/2*(4-14)" = .ok e ∧ e.Displays x ∧ x.Fits ∧
      (x.DividesByZero → (evaluate e).value = .error (.computation .zeroDenominator)) ∧
      (¬ x.DividesByZero → ∃ q, x.rational? = some q ∧ (evaluate e).steps.back? = some (toString q) ∧
        (evaluate e).value = .ok (Decimal.ofInt q.num / Decimal.ofInt q.den)) ∧
      ∀ n id, id ∈ (reducedBy n e).preorder (reducedBy n e).root →
      ((reducedBy n e).node id).deferred = false := by
  have parses : (Expression.ofText "1/2*(4-14)" : Except GrammarError Formula).isOk := by cbv
  have small : (Tree.ofText "1/2*(4-14)" : Except GrammarError (Tree Mark)).toOption.all fun x =>
      decide x.Fits := by
    decide +kernel
  cases parsed : (Expression.ofText "1/2*(4-14)" : Except GrammarError Formula) with
  | error error => simp [parsed, Except.isOk, Except.toBool] at parses
  | ok e =>
    obtain ⟨x, built, displays, _⟩ := displays_of_parsed parsed
    have fits : x.Fits := by simpa [built, Except.toOption] using small
    have characters : ∀ c ∈ "1/2*(4-14)".toList, Text.IsArithmetic c := by
      simp [Text.IsArithmetic]
    exact ⟨e, x, rfl, displays, fits, evaluate_arithmetic characters parsed displays fits⟩

end Formula

end Stepwise
