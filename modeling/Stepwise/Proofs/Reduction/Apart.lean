import Stepwise.Proofs.Decimal.Sign
import Stepwise.Proofs.Reduction.Again
import Stepwise.Proofs.Reduction.Hidden

/-! Numbers with a sign on them. A sign in front of a number is read as a part of it where nothing
binds more tightly, and it is an operator of its own otherwise. Main statement: outside the
arguments of calls a tree has the same value when the signs of its numbers are set apart. -/
namespace Stepwise

open Decimal (IsRational)
open Expression (Alike)

/-- The digits of a number with its sign on it that is neither zero nor too large for a double. -/
def Token.signed? (token : Token) : Option String :=
  token.negative?.filter fun digits => (Decimal.read? digits).any fun n =>
    Decimal.isFinite n && decide (0.0 < n)

namespace Tree

variable {x y left left' right right' : Tree Mark} {a b c l r : Mark} {digits : String}

def signFork (a : Mark) (digits : String) : Tree Mark :=
  fork { a with token := .inserted .minus "-", unary := true } (leaf { token := .inserted .number "0" })
    (leaf { token := .inserted .number digits })

/-- A power of a letter. What is multiplied by it is its coefficient, which has no sign. -/
def isLetterPower : Tree Mark → Bool
  | fork b (leaf c) _ => b.token.kind == .power && c.token.kind == .letter
  | _ => false

/-- The tree with the signs of its numbers set apart, except inside the arguments of calls. -/
def setApart : Tree Mark → Tree Mark
  | leaf a =>
    match a.token.signed? with
    | some digits => signFork a digits
    | none => leaf a
  | group a inner => group a inner
  | fork a left right =>
    if a.call.isSome then fork a left right
    else fork a (if right.isLetterPower then left else left.setApart) right.setApart

theorem negative_of_signed {token : Token} (signed : token.signed? = some digits) :
    token.negative? = some digits :=
  (Option.filter_eq_some_iff.mp signed).1

theorem kind_of_negative {token : Token} (negative : token.negative? = some digits) : token.kind = .number :=
  congrArg Token.kind (negative_eq negative)

theorem text_of_negative {token : Token} (negative : token.negative? = some digits) :
    token.text = "-" ++ digits :=
  congrArg Token.text (negative_eq negative)

/-- The number that the sign is taken off, and how it is read with the sign. -/
theorem read_signed {token : Token} (signed : token.signed? = some digits)
    (numeral : Token.IsNumeral digits.toList) :
    ∃ n p, IsRational n p ∧ 0 < p ∧ Decimal.read? digits = some n ∧ Decimal.read? token.text = some (-n) := by
  obtain ⟨negative, holds⟩ := Option.filter_eq_some_iff.mp signed
  have magnitude := Decimal.readDigits_numeral numeral
  rw [← Decimal.readMagnitude_numeral numeral] at magnitude
  obtain ⟨n, magnitude⟩ := Option.isSome_iff_exists.mp magnitude
  have read := Decimal.read_plain numeral magnitude
  simp only [read, Option.any_some, Bool.and_eq_true, decide_eq_true_eq] at holds
  obtain ⟨p, rational⟩ := Decimal.isRational_of_isFinite holds.1
  refine ⟨n, p, rational, (IsRational.zero.lt rational).mp holds.2, read, ?_⟩
  rw [text_of_negative negative, Decimal.read_negated magnitude]

/-! Setting signs apart does not change what the text keeps. -/

theorem isUnit_signFork (a b : Mark) (digits : String) : isUnit a (signFork b digits) = false := by
  simp [isUnit, signFork, isLeaf]

theorem isUnit_setApart (a : Mark) (x : Tree Mark) : isUnit a x.setApart = isUnit a x := by
  cases x with
  | leaf b =>
    rw [setApart]
    split
    · next digits signed =>
      have text : b.token.text ≠ "1" := fun one => by
        have negative := negative_of_signed signed
        rw [Token.negative?, one] at negative
        split at negative
        · next same => simp at same
        · cases negative
      rw [isUnit_signFork]
      simp [isUnit, text]
    · rfl
  | group b inner => rfl
  | fork b left right =>
    rw [setApart]
    split <;> rfl

theorem core_signFork (negative : a.token.negative? = some digits) (numeral : Token.IsNumeral digits.toList) :
    (signFork a digits).core = (leaf a).core := by
  have zero : (leaf { token := .inserted .number "0" } : Tree Mark).core =
      leaf { token := .inserted .number "0" } :=
    core_numeral (.whole (by simp) (by simp)) none
  have number : (leaf { token := .inserted .number digits } : Tree Mark).core =
      leaf { token := .inserted .number digits } :=
    core_numeral numeral none
  rw [signFork, core_fork (by simp [isUnit, Token.inserted]), zero, number, core_negative negative]
  rfl

theorem core_setApart (textual : x.Textual) : x.setApart.core = x.core := by
  induction x with
  | leaf a =>
    rw [setApart]
    split
    · next digits signed =>
        exact core_signFork (negative_of_signed signed)
          (textual.2 digits (negative_of_signed signed))
    · rfl
  | group a inner => rfl
  | fork a left right ihl ihr =>
    rw [setApart]
    split
    · rfl
    · have first : (if right.isLetterPower then left else left.setApart).core = left.core := by
        split
        · rfl
        · exact ihl textual.2.2.1
      have same : isUnit a (if right.isLetterPower then left else left.setApart) = isUnit a left := by
        split
        · rfl
        · exact isUnit_setApart a left
      by_cases unit : isUnit a left
      · rw [core_unit (same.trans unit), core_unit unit, ihr textual.2.2.2]
      · rw [core_fork (by rw [same]; exact unit), core_fork unit, first, ihr textual.2.2.2]

theorem textual_signFork (fresh : a.Fresh) (numeral : Token.IsNumeral digits.toList) :
    (signFork a digits).Textual := by
  have plain {text : String} (numeral : Token.IsNumeral text.toList) :
      (leaf ({ token := .inserted .number text } : Mark)).Textual :=
    ⟨⟨rfl, rfl, rfl, fun sign => by cases sign⟩,
      fun _ signed => by cases (Token.negative_numeral numeral _ _).symm.trans signed⟩
  exact ⟨⟨fresh.value, fresh.reduced, fresh.deferred, fun _ => .inr rfl⟩, fun unit => by
    simp [isUnit, Token.inserted] at unit, plain (.whole (by simp) (by simp)), plain numeral⟩

theorem Textual.setApart (textual : x.Textual) : x.setApart.Textual := by
  induction x with
  | leaf a =>
    rw [Tree.setApart]
    split
    · next digits signed => exact textual_signFork textual.1 (textual.2 digits (negative_of_signed signed))
    · exact textual
  | group a inner => exact textual
  | fork a left right ihl ihr =>
    rw [Tree.setApart]
    split
    · exact textual
    · obtain ⟨fresh, one, first, second⟩ := textual
      split
      · exact ⟨fresh, one, first, ihr second⟩
      · refine ⟨fresh, fun unit => ?_, ihl first, ihr second⟩
        rw [isUnit_setApart] at unit
        obtain ⟨star, number⟩ := one unit
        refine ⟨star, ?_⟩
        cases left with
        | leaf b =>
          rw [Tree.setApart]
          split
          · next digits signed =>
            rw [← isUnit_setApart, Tree.setApart, signed, isUnit_signFork] at unit
            cases unit
          · exact number
        | group | fork => simp [isUnit, isLeaf] at unit

/-! Setting signs apart while a tree is prepared. -/

inductive SetsApart : Tree Mark → Tree Mark → Prop
  | refl (x : Tree Mark) : SetsApart x x
  | sign {a : Mark} {digits : String} (fresh : a.Fresh) (signed : a.token.signed? = some digits)
      (numeral : Token.IsNumeral digits.toList) : SetsApart (leaf a) (signFork a digits)
  | fork {a : Mark} {left left' right right' : Tree Mark} (unmarked : a.call = none)
      (outstanding : a.isSettled = false)
      (coefficient : right.isLetterPower → left' = left) (first : SetsApart left left')
      (second : SetsApart right right') :
      SetsApart (fork a left right) (fork a left' right')

theorem Textual.setsApart (textual : x.Textual) : SetsApart x x.setApart := by
  induction x with
  | leaf a =>
    rw [Tree.setApart]
    split
    · next digits signed => exact .sign textual.1 signed (textual.2 digits (negative_of_signed signed))
    · exact .refl _
  | group a inner => exact .refl _
  | fork a left right ihl ihr =>
    rw [Tree.setApart]
    split
    · exact .refl _
    · next unmarked =>
      obtain ⟨fresh, _, first, second⟩ := textual
      refine .fork (by simpa using unmarked) (by simp [Label.isSettled, fresh.reduced, fresh.deferred])
        (fun power => if_pos power) ?_ (ihr second)
      split
      · exact .refl _
      · exact ihl first

theorem isLetterPower_foldFactorials (x : Tree Mark) (power : x.foldFactorials.1.isLetterPower) :
    x.isLetterPower := by
  cases x with
  | leaf a =>
    simp only [foldFactorials] at power
    repeat' split at power
    all_goals cases power
  | group a inner => cases power
  | fork b base exponent =>
    have same (base' exponent' : Tree Mark) (power : (fork b base' exponent').isLetterPower)
        (folded : base' = base.foldFactorials.1) : (fork b base exponent).isLetterPower := by
      subst folded
      cases base with
      | leaf c =>
        simp only [foldFactorials] at power
        split at power
        · split at power
          · simp [isLetterPower, Label.collapse, Content.token, Quantity.token, Token.inserted] at power
          · exact power
        · exact power
      | group | fork =>
        simp only [foldFactorials] at power
        repeat' split at power
        all_goals cases power
    simp only [foldFactorials] at power
    split at power
    · next y error failed => exact same _ _ power (by rw [failed])
    · next y folded => exact same _ _ power (by rw [folded])

theorem SetsApart.foldFactorials (apart : SetsApart x y) :
    SetsApart x.foldFactorials.1 y.foldFactorials.1 ∧ x.foldFactorials.2 = y.foldFactorials.2 := by
  induction apart with
  | refl x => exact ⟨.refl _, rfl⟩
  | @sign a digits fresh signed numeral =>
    have kind : a.token.kind = .number := kind_of_negative (negative_of_signed signed)
    have first : (leaf a).foldFactorials = (leaf a, .ok ()) := by simp [Tree.foldFactorials, kind]
    have second : (signFork a digits).foldFactorials = (signFork a digits, .ok ()) := by
      simp [signFork, Tree.foldFactorials, Token.inserted]
    rw [first, second]
    exact ⟨.sign fresh signed numeral, rfl⟩
  | @fork a left left' right right' unmarked outstanding coefficient first second ihl ihr =>
    have stays : right.isLetterPower → left'.foldFactorials.1 = left.foldFactorials.1 :=
      fun power => by rw [coefficient power]
    obtain ⟨folded, ended⟩ := ihl
    simp only [Tree.foldFactorials]
    generalize left.foldFactorials = l, left'.foldFactorials = l' at folded ended stays ⊢
    obtain ⟨l, outcome⟩ := l
    obtain ⟨l', outcome'⟩ := l'
    obtain rfl : outcome = outcome' := ended
    cases outcome with
    | error error => exact ⟨.fork unmarked outstanding stays folded second, rfl⟩
    | ok done =>
      exact ⟨.fork unmarked outstanding
        (fun power => stays (isLetterPower_foldFactorials right power)) folded ihr.1, ihr.2⟩

/-- Only a power of a letter makes a monomial of the number in front of it. -/
theorem monomial_other (other : right.isLetterPower = false) (a : Mark) (left : Tree Mark) :
    (fork a left right).monomial? = none := by
  cases right with
  | leaf | group => rfl
  | fork b base exponent =>
    cases base with
    | leaf c =>
      simp only [isLetterPower, Bool.and_eq_false_iff, beq_eq_false_iff_ne] at other
      simp only [monomial?]
      split
      · rfl
      · rcases other with power | letter
        · simp [power]
        · simp [letterLeaf?, letter]
    | group | fork => simp [monomial?, letterLeaf?]

theorem SetsApart.isLetterPower (apart : SetsApart x y) : y.isLetterPower = x.isLetterPower := by
  cases apart with
  | refl => rfl
  | sign => rfl
  | @fork b base base' exponent exponent' unmarked outstanding coefficient first second =>
    cases first with
    | refl => cases base <;> rfl
    | @sign c digits fresh signed numeral =>
      simp [Tree.isLetterPower, signFork, kind_of_negative (negative_of_signed signed)]
    | fork => rfl

/-- An exponent with a sign is no power that a polynomial is raised to. -/
theorem SetsApart.power (apart : SetsApart x y) :
    x.numberLeaf?.bind polynomialPower? = y.numberLeaf?.bind polynomialPower? := by
  cases apart with
  | refl => rfl
  | @sign a digits fresh signed numeral =>
    obtain ⟨n, p, rational, positive, -, read⟩ := read_signed signed numeral
    have negative : polynomialPower? (-n) = none := by
      unfold polynomialPower?
      cases whole : Decimal.toWhole? (-n) with
      | none => rfl
      | some k =>
        have below := rational.neg.whole_neg (neg_lt_zero.mpr positive) whole
        simp [below]
    simp only [signFork, numberLeaf?]
    split
    · rw [read, Option.bind_some, negative]
      rfl
    · rfl
  | fork => rfl

theorem SetsApart.monomial (apart : SetsApart right right')
    (coefficient : right.isLetterPower → left' = left) (a : Mark) :
    (Tree.fork a left right).monomial? = (Tree.fork a left' right').monomial? := by
  by_cases power : right.isLetterPower
  · rw [coefficient power]
    cases apart with
    | refl => rfl
    | sign => cases power
    | @fork b base base' exponent exponent' unmarked outstanding inner first second =>
      have same : base' = base := by
        cases first with
        | refl => rfl
        | @sign c digits fresh signed numeral =>
          simp [Tree.isLetterPower, kind_of_negative (negative_of_signed signed)] at power
        | fork => cases power
      rw [same]
      simp only [monomial?, second.power]
  · have other := Bool.eq_false_iff.mpr power
    rw [monomial_other other, monomial_other (apart.isLetterPower.trans other)]

/-- A prepared tree and the same tree with some signs that are still to be reduced. -/
inductive Ahead : Tree Mark → Tree Mark → Prop
  | refl (x : Tree Mark) : Ahead x x
  | sign {b c l r : Mark} (pending : (fork c (leaf l) (leaf r)).isPending)
      (goes : (fork c (leaf l) (leaf r)).step? = some (.ok (leaf b))) :
      Ahead (leaf b) (fork c (leaf l) (leaf r))
  | fork {a : Mark} {left left' right right' : Tree Mark} (outstanding : a.isSettled = false)
      (first : Ahead left left')
      (second : Ahead right right') : Ahead (fork a left right) (fork a left' right')

/-! The sign of a number is reduced to the number with the sign on it. -/

theorem attachNumber_fresh {n : Float} (value : a.value = none) (kind : a.token.kind = .number)
    (read : Decimal.read? a.token.text = some n) : a.attachNumber = a.collapse (.constant n) := by
  simp [Label.attachNumber, value, kind, read]

theorem attach_number {text : String} {n : Float} (read : Decimal.read? text = some n) :
    (leaf ({ token := .inserted .number text } : Mark)).attachQuantities =
      leaf (({ token := .inserted .number text } : Mark).collapse (.constant n)) := by
  have attached : ({ token := .inserted .number text } : Mark).attachNumber =
      ({ token := .inserted .number text } : Mark).collapse (.constant n) := attachNumber_fresh rfl rfl read
  rw [Tree.attachQuantities, attached, attachCall_unmarked rfl]
  rfl

theorem zero_less_number {n : Float} {p : ℚ} (rational : IsRational n p) (positive : 0 < p) :
    (Quantity.constant 0.0).apply .subtract (.constant n) = .ok (some (.constant (-n))) := by
  have finite : Decimal.isFinite (-n) := rational.neg.isFinite
  have less : 0.0 + n * (-1.0) = -n := rational.zero_less positive.ne'
  change Quantity.number (0.0 + n * (-1.0)) "addition" = _
  rw [less, Quantity.number, Quantity.ofNumber, if_pos finite]
  rfl

/-- A call gets the same term from a number whether it stood on the number or on its sign. -/
theorem settled_eq_attachCall {c : Mark} {n : Float} (argument : Tree Mark)
    (before : ∀ keyword, c.termKeyword? = some keyword → c.value = some (argument.callTerm keyword none)) :
    settled c (.constant n) = leaf (leaf (c.collapse (.constant n))).attachCall := by
  have keyword : (c.collapse (.constant n)).termKeyword? = c.termKeyword? := rfl
  have derivative : (c.collapse (.constant n)).isDerivative = c.isDerivative := rfl
  have bare : (c.collapse (.constant n)).value.any Formula.isTerm = false := rfl
  rw [settled, Tree.attachCall, top_leaf, keyword, derivative, bare]
  cases here : c.termKeyword? with
  | none => rfl
  | some keyword =>
    have factors : callFactors c.value = callFactors none := by
      rw [before keyword here, callTerm_eq]
      split <;> rfl
    have term : (leaf (c.collapse (.constant n))).callTerm keyword c.value =
        (leaf (c.collapse (.constant n))).callTerm keyword none := by
      rw [callTerm_eq, callTerm_eq, factors]
    simp only [term]
    rfl

theorem attachCall_inner (inner : x.isLeaf = false) (value : x.top.value = none)
    (reduced : x.top.reduced = false) :
    x.attachCall = { x.top with value := x.top.termKeyword?.map fun keyword => x.callTerm keyword none } := by
  have same (b : Mark) (value : b.value = none) : { b with value := none } = b := by
    rw [← value]
  have same' (b : Mark) (reduced : b.reduced = false) : { b with reduced := false } = b := by
    rw [← reduced]
  rw [Tree.attachCall, value, inner]
  cases x.top.termKeyword? with
  | none =>
    simp only [Option.map_none, same _ value, same' _ reduced, ite_self]
  | some keyword =>
    simp only [Option.any_none, Option.map_some, Bool.false_eq_true, if_false]
    rw [← reduced]

theorem pending_fork (outstanding : a.isSettled = false) (left right : Tree Mark) :
    (fork a left right).isPending := by
  simp [isPending, isLeaf, outstanding]

/-- The operands of a difference that is prepared are numbers. -/
theorem step_difference {c l r : Mark} {n p q : Quantity} (outstanding : c.isSettled = false)
    (minus : c.token.kind = .minus) (less : p.apply .subtract q = .ok (some n)) :
    (fork c (leaf (l.collapse p)) (leaf (r.collapse q))).step? = some (.ok (settled c n)) := by
  have still (a : Mark) (p : Quantity) : (leaf (a.collapse p)).isPending = false := rfl
  have pending := pending_fork outstanding (leaf (l.collapse p)) (leaf (r.collapse q))
  have values : (fork c (leaf (l.collapse p)) (leaf (r.collapse q))).operands = (some p, some q) := rfl
  have known : Operation.ofKind? c.token.kind = some .subtract := by rw [minus]; rfl
  have combined : combination c (some p) (some q) = .ok (some n) := by simp only [combination, known, less]
  rw [step?, pendingDepth, pendingDepth, still, still]
  simp only [Bool.false_eq_true, if_false, deeper, step?, still, pending, if_true]
  simp only [reduceTop, isLeaf, top_fork, minus, values, combined, Bool.false_eq_true, if_false, reduceCtorEq]

theorem SetsApart.sign_ahead (fresh : a.Fresh) (signed : a.token.signed? = some digits)
    (numeral : Token.IsNumeral digits.toList) :
    Ahead (leaf a).recognize.attachQuantities (signFork a digits).recognize.attachQuantities := by
  have kind : a.token.kind = .number := kind_of_negative (negative_of_signed signed)
  obtain ⟨n, p, rational, positive, read, read'⟩ := read_signed signed numeral
  have first : (leaf a).recognize = leaf a := by simp [Tree.recognize, recognized?, monomial?, kind]
  have second : (signFork a digits).recognize = signFork a digits := by
    simp [signFork, Tree.recognize, recognized?, monomial?, isLeaf, Token.inserted]
  have zero : Decimal.read? "0" = some 0.0 := by decide +kernel
  rw [first, second, Tree.attachQuantities, attachNumber_fresh fresh.value kind read', signFork,
    Tree.attachQuantities, attach_number zero, attach_number read]
  let whole := signFork a digits
  have value : whole.top.value = none := fresh.value
  have reduced : whole.top.reduced = false := fresh.reduced
  have attached : whole.attachCall = { whole.top with
        value := whole.top.termKeyword?.map fun keyword => whole.callTerm keyword none } :=
    attachCall_inner rfl value reduced
  have outstanding : whole.attachCall.isSettled = false := by
    rw [attached]
    exact Bool.or_eq_false_iff.mpr ⟨fresh.reduced, fresh.deferred⟩
  have minus : whole.attachCall.token.kind = .minus := by rw [attached]; rfl
  have collapsed : whole.attachCall.collapse (.constant (-n)) = a.collapse (.constant (-n)) := by
    rw [attached]; rfl
  have goes := step_difference (l := { token := .inserted .number "0" })
    (r := { token := .inserted .number digits }) outstanding minus
    (zero_less_number rational positive)
  rw [settled_eq_attachCall whole, collapsed] at goes
  · exact .sign (pending_fork outstanding _ _) goes
  · intro keyword here
    rw [attached] at here ⊢
    have here : whole.top.termKeyword? = some keyword := here
    simp only [here, Option.map_some]

/-- Recognizing the terms and attaching the quantities. -/
theorem SetsApart.prepared (apart : SetsApart x y) :
    Ahead x.recognize.attachQuantities y.recognize.attachQuantities := by
  induction apart with
  | refl x => exact .refl _
  | sign fresh signed numeral => exact sign_ahead fresh signed numeral
  | @fork a left left' right right' unmarked outstanding coefficient first second ihl ihr =>
    have recognized : (Tree.fork a left right).recognized? = (Tree.fork a left' right').recognized? := by
      simp only [recognized?, second.monomial coefficient a, isLeaf, Bool.false_eq_true, false_and, if_false]
    have bare (left right : Tree Mark) : (Tree.fork a left right).attachCall = a :=
      attachCall_unmarked unmarked
    rw [Tree.recognize, Tree.recognize, recognized]
    cases (Tree.fork a left' right').recognized? with
    | some term => exact .refl _
    | none =>
      simp only
      rw [Tree.attachQuantities, Tree.attachQuantities, bare, bare]
      exact .fork outstanding ihl ihr

/-! The runs. -/

namespace Ahead

variable {x y z : Tree Mark}

theorem eq_of_next (ahead : Ahead x y) (stops : y.next? = none) : x = y := by
  have busy {y : Tree Mark} (pending : y.isPending) : y.next? ≠ none := fun stops => by
    rw [next?, if_pos pending] at stops
    exact not_idle_of_pending pending ((step_none_iff y).mp stops)
  cases ahead with
  | refl => rfl
  | sign pending _ => exact absurd stops (busy pending)
  | fork outstanding _ _ => exact absurd stops (busy (pending_fork outstanding _ _))

theorem eq_of_idle (ahead : Ahead x y) (idle : y.Idle) : x = y := by
  cases ahead with
  | refl => rfl
  | sign pending _ => exact absurd idle (not_idle_of_pending pending)
  | fork outstanding _ _ => exact absurd idle (not_idle_of_pending (pending_fork outstanding _ _))

/-- A sign that is still to be reduced makes nothing less deep. -/
theorem height (ahead : Ahead x y) : x.height ≤ y.height := by
  induction ahead with
  | refl x => exact Nat.le_refl _
  | @sign b c l r pending _ =>
    have busy : (Tree.fork c (leaf l) (leaf r)).height ≠ 0 := fun zero =>
      not_idle_of_pending pending ((idle_iff_height _).mpr zero)
    have flat : (leaf b).height ≤ 1 := by
      by_cases derivative : (leaf b).isPending <;> simp [Tree.height, pendingDepth, derivative]
    omega
  | @fork a left left' right right' outstanding first second ihl ihr =>
    rw [height_fork, height_fork, isPending_relabel a left right left' right']
    repeat' split
    all_goals omega

theorem alike_refl (result : Option (Except ComputationError (Tree Mark))) :
    Option.Rel (Alike Ahead) result result := by
  cases result with
  | none => exact .none
  | some result =>
    cases result with
    | error error => exact .some rfl
    | ok z => exact .some (.refl z)

theorem alike_map {f g : Tree Mark → Tree Mark}
    {result result' : Option (Except ComputationError (Tree Mark))}
    (alike : Option.Rel (Alike Ahead) result result')
    (kept : ∀ x y, Ahead x y → Ahead (f x) (g y)) :
    Option.Rel (Alike Ahead) (result.map fun r => r.map f) (result'.map fun r => r.map g) := by
  cases alike with
  | none => exact .none
  | some inner => exact .some (inner.map kept)

/-- Of a tree and the same tree with signs still to be reduced, the second one reduces one of those,
or both do the same. -/
theorem step (ahead : Ahead x y) : (∃ z, y.step? = some (.ok z) ∧ Ahead x z) ∨
    (y.height = x.height ∧ Option.Rel (Alike Ahead) x.step? y.step?) := by
  induction ahead with
  | refl x => exact .inr ⟨rfl, alike_refl _⟩
  | sign pending goes => exact .inl ⟨_, goes, .refl _⟩
  | @fork a left left' right right' outstanding first second ihl ihr =>
    have monotonel := first.height
    have monotoner := second.height
    by_cases deeper : right'.height < left'.height
    · rcases ihl with ⟨z, stepped, later⟩ | ⟨height, alike⟩
      · exact .inl ⟨Tree.fork a z right', by rw [step_left deeper, stepped]; rfl,
          .fork outstanding later second⟩
      · have deeper' : right.height < left.height := by omega
        refine .inr ⟨?_, ?_⟩
        · rw [height_fork, height_fork, if_neg (by omega), if_neg (by omega)]
          omega
        · rw [step_left deeper, step_left deeper']
          exact alike_map alike fun _ _ later => .fork outstanding later second
    · by_cases idle : right'.height = 0
      · rw [first.eq_of_idle ((idle_iff_height left').mpr (by omega)),
          second.eq_of_idle ((idle_iff_height right').mpr idle)]
        exact .inr ⟨rfl, alike_refl _⟩
      · rcases ihr with ⟨z, stepped, later⟩ | ⟨height, alike⟩
        · exact .inl ⟨Tree.fork a left' z, by rw [step_right (by omega) idle, stepped]; rfl,
            .fork outstanding first later⟩
        · refine .inr ⟨?_, ?_⟩
          · rw [height_fork, height_fork, if_neg (by omega), if_neg (by omega)]
            omega
          · rw [step_right (by omega) idle, step_right (by omega) (by omega)]
            exact alike_map alike fun _ _ later => .fork outstanding first later

theorem next (ahead : Ahead x y) :
    (∃ z, y.next? = some (.ok z) ∧ Ahead x z) ∨ Option.Rel (Alike Ahead) x.next? y.next? := by
  cases ahead with
  | refl => exact .inr (alike_refl _)
  | sign pending goes => exact .inl ⟨_, by rw [next?, if_pos pending, goes], .refl _⟩
  | @fork a left left' right right' outstanding first second =>
    have pending := pending_fork outstanding
    rw [next?, next?, if_pos (pending _ _), if_pos (pending _ _)]
    exact (step (.fork outstanding first second)).imp_right And.right

/-- Both runs end alike, and with the same tree if they do not fail. -/
theorem run (ahead : Ahead x y) : x.run.2 = y.run.2 ∧ (y.run.2 = .ok () → x.reduct = y.reduct) := by
  induction effort : y.effort using Nat.strong_induction_on generalizing x y with
  | _ n ih =>
    rcases ahead.next with ⟨z, goes, later⟩ | alike
    · rw [run_goes goes, reduct_goes goes]
      exact ih z.effort (effort ▸ effort_next goes) later rfl
    · cases there : y.next? with
      | none => rw [ahead.eq_of_next there]; exact ⟨rfl, fun _ => rfl⟩
      | some result' =>
        cases here : x.next? with
        | none => rw [here, there] at alike; cases alike
        | some result =>
          rw [here, there] at alike
          cases alike with
          | some alike =>
            cases result with
            | error error =>
              cases result' with
              | error error' =>
                rw [run_fails here, run_fails there]
                exact ⟨congrArg Except.error alike, fun ended => by cases ended⟩
              | ok z' => cases alike
            | ok z =>
              cases result' with
              | error error' => cases alike
              | ok z' =>
                rw [run_goes here, run_goes there, reduct_goes here, reduct_goes there]
                exact ih z'.effort (effort ▸ effort_next there) alike rfl

theorem reduceFully (ahead : Ahead x y) : x.reduceFully.ended = y.reduceFully.ended ∧
    (y.reduceFully.ended = .ok () → x.reduceFully.tree = y.reduceFully.tree) := by
  obtain ⟨ended, same⟩ := ahead.run
  unfold Tree.reduceFully
  rw [ended]
  cases stop : y.run.2 with
  | error error => exact ⟨rfl, fun ended => by cases ended⟩
  | ok done =>
    rw [same stop]
    cases y.reduct.simplifyRoot with
    | error error => exact ⟨rfl, fun ended => by cases ended⟩
    | ok z => exact ⟨rfl, fun _ => rfl⟩

end Ahead

/-- The value is that of the last tree. -/
theorem value_of_tree (ended : x.trace.ended = y.trace.ended)
    (same : y.trace.ended = .ok () → x.trace.tree = y.trace.tree) :
    x.trace.value = y.trace.value := by
  rw [Result.value, Result.value, ended]
  cases stop : y.trace.ended with
  | error error => rfl
  | ok done => rw [trace_last (ended.trans stop), trace_last stop, same stop]

/-- Setting the signs of numbers apart does not change the value. -/
theorem Textual.value_setApart (textual : x.Textual) : x.setApart.trace.value = x.trace.value := by
  obtain ⟨folded, outcome⟩ := textual.setsApart.foldFactorials
  have alike : x.trace.ended = x.setApart.trace.ended ∧
      (x.setApart.trace.ended = .ok () → x.trace.tree = x.setApart.trace.tree) := by
    unfold trace prepare
    generalize x.foldFactorials = first, x.setApart.foldFactorials = second at folded outcome ⊢
    obtain ⟨y, stop⟩ := first
    obtain ⟨z, stop'⟩ := second
    obtain rfl : stop = stop' := outcome
    cases stop with
    | error error => exact ⟨rfl, fun ended => by cases ended⟩
    | ok done => exact folded.prepared.reduceFully
  exact (value_of_tree alike.1 alike.2).symm

end Tree

end Stepwise
