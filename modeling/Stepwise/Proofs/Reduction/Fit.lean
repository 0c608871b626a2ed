import Stepwise.Proofs.Quantity.Wording
import Stepwise.Proofs.Reduction.Intact
import Stepwise.Proofs.Reduction.Prepared

/-! Trees whose quantities are finite and in their simplest form. Main statements: a text whose
numbers are finite is prepared to such a tree, and a reduction keeps it such as long as what it puts
in its place is finite. -/
namespace Stepwise

open Text (IsWord)
open Decimal (isFinite)

namespace Polynomial

theorem dropZeros_subset (coefficients : Array Float) : ∀ c ∈ dropZeros coefficients, c ∈ coefficients := by
  fun_induction dropZeros coefficients with
  | case1 coefficients zero ih =>
    intro c member
    have kept := Array.mem_def.mp (ih c member)
    rw [Array.toList_pop] at kept
    exact Array.mem_def.mpr (List.mem_of_mem_dropLast kept)
  | case2 coefficients other => exact fun _ member => member

theorem make_finite {coefficients : Array Float} (finite : ∀ c ∈ coefficients, isFinite c) (letter : Char) :
    (make coefficients letter).IsFinite := by
  unfold make
  split
  · intro c member
    obtain rfl : c = 0.0 := by simpa using member
    exact Decimal.IsRational.zero.isFinite
  · exact fun c member => finite c (dropZeros_subset _ c member)

theorem monomial_finite {x : Float} (finite : isFinite x) (power : Nat) (letter : Char) :
    (monomial x power letter).IsFinite := by
  refine make_finite (fun c member => ?_) letter
  rcases Array.mem_push.mp member with zero | rfl
  · obtain rfl : c = 0.0 := (Array.mem_replicate.mp zero).2
    exact Decimal.IsRational.zero.isFinite
  · exact finite

theorem degree_monomial {x : Float} (nonzero : (x == 0.0) = false) (power : Nat) (letter : Char) :
    (monomial x power letter).degree = power := by
  have kept : dropZeros ((Array.replicate power 0.0).push x) = (Array.replicate power 0.0).push x := by
    rw [dropZeros, if_neg fun zero => by simp [nonzero] at zero]
  have nonempty : ((Array.replicate power 0.0).push x).isEmpty = false := by simp
  simp [monomial, make, nonempty, degree, kept]

/-- A polynomial of degree one has a slope. -/
theorem IsNamed.slope {p : Polynomial} (named : p.IsNamed) (degree : p.degree = 1) :
    (p.coefficient 1 == 0.0) = false := by
  have size : p.coefficients.size = 2 := by
    unfold Polynomial.degree at degree
    omega
  have top := named.top (by omega)
  rw [Array.back?_eq_getElem?, size, Array.getElem?_eq_getElem (by omega), Option.any_some] at top
  simpa [Polynomial.coefficient, size] using top

end Polynomial

namespace Quantity

variable {q : Quantity}

theorem IsReduced.isNamed (reduced : q.IsReduced) : q.IsNamed := by
  cases q with
  | fraction n d => exact ⟨reduced.top.named, reduced.bottom.named⟩
  | _ => exact reduced.named

def AmountsFinite (q : Quantity) : Prop := ∀ x, q.value? = some x → isFinite x

def IsElementary (q : Quantity) : Prop := (∃ x, q = constant x) ∨ ∃ p, q = polynomial p

theorem IsElementary.amount (elementary : q.IsElementary) (finite : q.IsFinite) : q.AmountsFinite := by
  intro x value
  rcases elementary with ⟨y, rfl⟩ | ⟨p, rfl⟩
  · exact Option.some.inj value ▸ finite
  · simp only [value?] at value
    split at value
    · exact Option.some.inj value ▸ Polynomial.IsFinite.coefficient finite 0
    · cases value

theorem polynomial_reduced {p : Polynomial} (named : p.IsNamed) (proper : p.degree ≠ 0) :
    (polynomial p).IsReduced :=
  IsSimple.reduced ⟨side_polynomial named, fun _ same => polynomial.inj same ▸ proper⟩

end Quantity

namespace Label

structure IsFit (a : Mark) : Prop where
  call : ∀ keyword ∈ a.call, keyword.kind.IsMark ∧ keyword.Spelled
  value : ∀ q ∈ a.value, q.IsFinite ∧ q.IsReduced

structure IsInner (a : Mark) : Prop extends a.IsFit where
  term : ∀ q ∈ a.value, Formula.isTerm q

theorem IsFit.worded {a : Mark} (fit : a.IsFit) : a.IsWorded where
  call := fit.call
  value q member := Quantity.isWorded (fit.value q member).1 (fit.value q member).2.isNamed

structure IsShown (a : Mark) : Prop where
  word : IsWord a.token.text.toList
  token : a.call = none → ∀ q ∈ a.value, a.token = Content.token q

structure IsLiteral (a : Mark) : Prop extends a.IsShown where
  number : a.token.kind = .number → ∀ x, Decimal.read? a.token.text = some x → isFinite x
  letter : a.token.kind = .letter → a.token.Spelled
  amount : ∀ q ∈ a.value, q.AmountsFinite

variable {a : Mark} {q : Quantity}

theorem IsFit.collapse (fit : a.IsFit) (finite : q.IsFinite) (reduced : q.IsReduced) :
    (a.collapse q).IsFit ∧ (a.collapse q).IsShown := by
  have part := Quantity.rendered_part finite reduced.isNamed
  refine ⟨⟨fit.call, fun v same => Option.some.inj same ▸ ⟨finite, reduced⟩⟩, part.word, fun _ v same => ?_⟩
  rw [Option.some.inj same]
  rfl

theorem IsFit.collapse_literal (fit : a.IsFit) (finite : q.IsFinite) (reduced : q.IsReduced)
    (elementary : q.IsElementary) :
    (a.collapse q).IsFit ∧ (a.collapse q).IsLiteral := by
  obtain ⟨label, shown⟩ := fit.collapse finite reduced
  refine ⟨label, shown, fun kind x read => ?_, fun kind => absurd kind (token_kind_ne q).2, fun _ same => ?_⟩
  · rcases elementary with ⟨y, rfl⟩ | ⟨p, rfl⟩
    · obtain ⟨v, same, small⟩ := (Decimal.read_sixPlaces (x := y) finite).1
      exact Option.some.inj (same.symm.trans read) ▸ small
    · cases kind
  · exact Option.some.inj same ▸ elementary.amount finite

/-- A factorial is finite. -/
theorem factorial_finite {x v : Float} (formed : factorial x = .ok v) : isFinite v := by
  have small : ∀ n ≤ factorialLimit, factorialNat n < 2 ^ 53 := by decide
  unfold factorial at formed
  split at formed
  · split at formed
    · cases formed
    · split at formed
      · cases formed
      · next b _ other large =>
        obtain rfl := Except.ok.inj formed
        have whole := Decimal.ofInt_whole (a := factorialNat b.floor.toNat) (by
          have := small b.floor.toNat (by omega)
          simpa using this)
        exact whole.isRational.isFinite
  · cases formed

end Label

namespace Tree

/-- The operand that stands in front of a sign. -/
def IsHidden (x : Tree Mark) : Prop :=
  ∃ a, x = leaf a ∧ a.call = none ∧ a.token.kind = .number ∧ ∀ c ∈ a.token.text.toList, c.isAlpha = false

structure IsOperator (a : Mark) (left right : Tree Mark) : Prop where
  rank : a.token.kind.rank?.isSome
  spelled : a.token.Spelled
  unary : a.unary → a.token.kind ≠ .equals ∧ left.IsHidden
  deferred : a.deferred → combination a left.top.value right.top.value = .ok none

/-- Finite quantities in their simplest form over leaves with the property `p`. A group carries a call. -/
def Fit (p : Mark → Prop) : Tree Mark → Prop
  | leaf a => a.IsFit ∧ p a
  | group a inner => a.IsInner ∧ (a.token.kind = .opening ∧ a.unary = false ∧ a.call.isSome) ∧ inner.Fit p
  | fork a left right => a.IsInner ∧ IsOperator a left right ∧ left.Fit p ∧ right.Fit p

variable {p q : Mark → Prop} {x : Tree Mark}

theorem Fit.labels (fit : x.Fit p) : ∀ a ∈ x.flatten, a.IsFit := by
  induction x with
  | leaf a => exact fun b member => List.mem_singleton.mp member ▸ fit.1
  | group a inner ih =>
    intro b member
    rcases List.mem_cons.mp member with rfl | member
    · exact fit.1.toIsFit
    · exact ih fit.2.2 b member
  | fork a left right ihl ihr =>
    intro b member
    rcases List.mem_cons.mp member with rfl | member
    · exact fit.1.toIsFit
    · exact (List.mem_append.mp member).elim (ihl fit.2.2.1 b) (ihr fit.2.2.2 b)

theorem Fit.top (fit : x.Fit p) : x.top.IsFit := fit.labels _ x.top_mem

theorem Fit.leaves (fit : x.Fit p) (weaker : ∀ a ∈ x.flatten, p a → q a) : x.Fit q := by
  induction x with
  | leaf a => exact ⟨fit.1, weaker a (List.mem_singleton_self a) fit.2⟩
  | group a inner ih =>
    exact ⟨fit.1, fit.2.1, ih fit.2.2 fun b member => weaker b (List.mem_cons_of_mem _ member)⟩
  | fork a left right ihl ihr =>
    exact ⟨fit.1, fit.2.1, ihl fit.2.2.1 fun b member => weaker b
      (List.mem_cons_of_mem _ (List.mem_append_left _ member)), ihr fit.2.2.2 fun b member =>
      weaker b (List.mem_cons_of_mem _ (List.mem_append_right _ member))⟩

theorem Fit.worded (fit : x.Fit p) (word : ∀ a, p a → IsWord a.token.text.toList) : x.IsWorded := by
  induction x with
  | leaf a => exact ⟨fit.1.worded, word a fit.2⟩
  | group a inner ih => exact ⟨fit.1.worded, ⟨fit.2.1.1, fit.2.1.2.1⟩, ih fit.2.2⟩
  | fork a left right ihl ihr =>
    exact ⟨fit.1.worded, ⟨fit.2.1.rank, fit.2.1.spelled⟩, ihl fit.2.2.1, ihr fit.2.2.2⟩

theorem combination_congr {a b : Mark} (token : b.token = a.token) (left right : Option Quantity) :
    combination b left right = combination a left right := by
  unfold combination
  rw [token]

theorem IsOperator.relabel {a b : Mark} {left right : Tree Mark}
    (operator : IsOperator a left right) (token : b.token = a.token) (unary : b.unary = a.unary)
    (deferred : b.deferred → a.deferred) : IsOperator b left right where
  rank := token.symm ▸ operator.rank
  spelled := token.symm ▸ operator.spelled
  unary sign := by
    rw [token]
    exact operator.unary (unary.symm.trans sign)
  deferred put := (combination_congr token ..).trans (operator.deferred (deferred put))

/-- New operands of an operator that is not put off. -/
theorem IsOperator.over {a : Mark} {left right l r : Tree Mark} (operator : IsOperator a left right)
    (undeferred : a.deferred = false) (hidden : left.IsHidden → l.IsHidden) : IsOperator a l r where
  rank := operator.rank
  spelled := operator.spelled
  unary sign := (operator.unary sign).imp_right hidden
  deferred put := by simp [undeferred] at put

theorem Fit.mapTop (fit : x.Fit p) {f : Mark → Mark} (atLeaf : ∀ a, p a → p (f a))
    (here : ∀ a, a.IsFit → (f a).IsFit) (value : ∀ a, (f a).value = a.value)
    (token : ∀ a, (f a).token = a.token) (unary : ∀ a, (f a).unary = a.unary)
    (call : ∀ a, a.call.isSome → (f a).call.isSome) (deferred : ∀ a, (f a).deferred → a.deferred) :
    (x.mapTop f).Fit p := by
  cases x with
  | leaf a => exact ⟨here a fit.1, atLeaf a fit.2⟩
  | group a inner =>
    obtain ⟨label, ⟨kind, bare, called⟩, inside⟩ := fit
    exact ⟨⟨here a label.toIsFit, (value a).symm ▸ label.term⟩,
      ⟨(token a).symm ▸ kind, (unary a).trans bare, call a called⟩, inside⟩
  | fork a left right =>
    obtain ⟨label, operator, l, r⟩ := fit
    exact ⟨⟨here a label.toIsFit, (value a).symm ▸ label.term⟩,
      operator.relabel (token a) (unary a) (deferred a), l, r⟩

end Tree

namespace Label

structure IsSpelled (a : Mark) : Prop where
  word : IsWord a.token.text.toList
  letter : a.token.kind = .letter → a.token.Spelled
  value : a.value = none

theorem IsSpelled.literal {a : Mark} (spelled : a.IsSpelled)
    (finite : a.token.kind = .number → ∀ x, Decimal.read? a.token.text = some x → isFinite x) :
    a.IsLiteral where
  word := spelled.word
  token _ q member := by simp [spelled.value] at member
  number := finite
  letter := spelled.letter
  amount q member := by simp [spelled.value] at member

theorem isFit_of_plain {a : Mark} (call : a.call = none) (value : a.value = none) : a.IsFit where
  call keyword member := by simp [call] at member
  value q member := by simp [value] at member

theorem isInner_of_plain {a : Mark} (call : a.call = none) (value : a.value = none) : a.IsInner where
  toIsFit := isFit_of_plain call value
  term q member := by simp [value] at member

end Label

theorem isWord_numeral {text : List Char} (numeral : Token.IsNumeral text) :
    IsWord text ∧ IsWord ('-' :: text) := by
  obtain ⟨c, rest, same, -⟩ := numeral.first
  refine ⟨isWord_of_letterless (by simp [same]) fun c member => (Decimal.mem_numeral numeral
    member).letterless, isWord_of_letterless (by simp) fun c member => ?_⟩
  rcases List.mem_cons.mp member with rfl | member
  · decide
  · exact (Decimal.mem_numeral numeral member).letterless

namespace Tree

theorem Grammatical.fit {x : Tree Mark} (grammatical : x.Grammatical) : x.Fit Label.IsSpelled := by
  induction grammatical with
  | @number token kind spelled =>
    have numeral : Token.IsNumeral token.text.toList := by simpa [Token.Spelled, kind] using spelled
    exact ⟨Label.isFit_of_plain rfl rfl, (isWord_numeral numeral).1,
      fun letter => by simp [kind] at letter, rfl⟩
  | @negative digits numeral position =>
    refine ⟨Label.isFit_of_plain rfl rfl, ?_, (by simp), rfl⟩
    simpa using (isWord_numeral numeral).2
  | @factorial token kind spelled _ =>
    have numeral : Token.IsNumeral token.text.toList := by simpa [Token.Spelled, kind] using spelled
    exact ⟨Label.isFit_of_plain rfl rfl, (isWord_numeral numeral).1,
      fun letter => by simp [kind] at letter, rfl⟩
  | @power letter caret right isLetter named isCaret spelled _ ih =>
    obtain ⟨c, low, high, text⟩ : ∃ c, 'a' ≤ c ∧ c ≤ 'z' ∧ letter.text.toList = [c] := by
      simpa [Token.Spelled, isLetter] using named
    have word : IsWord letter.text.toList := text ▸ Polynomial.isWord_letter low high
    exact ⟨Label.isInner_of_plain rfl rfl, ⟨by simp [isCaret, Token.Kind.rank?], spelled, (by simp),
      (by simp)⟩, ⟨Label.isFit_of_plain rfl rfl, word, fun _ => named, rfl⟩, ih⟩
  | @sign token right kind spelled _ ih =>
    have rank : token.kind.rank?.isSome ∧ token.kind ≠ .equals := by
      rcases kind with kind | kind <;> simp [kind, Token.Kind.rank?]
    have zero : Token.IsNumeral "0".toList := .whole (by simp) (by simp)
    have hidden : (leaf ({ token := .inserted .number "0" } : Mark)).IsHidden :=
      ⟨_, rfl, rfl, rfl, fun c member => (Decimal.mem_numeral zero member).letterless.1⟩
    exact ⟨Label.isInner_of_plain rfl rfl, ⟨rank.1, spelled, fun _ => ⟨rank.2, hidden⟩, (by simp)⟩,
      ⟨Label.isFit_of_plain rfl rfl, (isWord_numeral zero).1, fun letter => (by cases letter), rfl⟩, ih⟩
  | operator rank spelled _ _ _ ihl ihr =>
    exact ⟨Label.isInner_of_plain rfl rfl, ⟨rank, spelled, (by simp), (by simp)⟩, ihl, ihr⟩
  | @call keyword x mark spelled argument ih =>
    have called (keyword' : Token) (member : keyword' ∈ some keyword) :
        keyword'.kind.IsMark ∧ keyword'.Spelled :=
      Option.some.inj member ▸ ⟨mark, spelled⟩
    cases call : x.top.call with
    | none =>
      rw [applyCall_unmarked mark call]
      exact ih.mapTop (fun _ here => ⟨here.word, here.letter, here.value⟩)
        (fun _ here => ⟨called, here.value⟩) (fun _ => rfl) (fun _ => rfl) (fun _ => rfl)
        (fun _ _ => rfl) fun _ => id
    | some _ =>
      rw [applyCall_marked mark (by simp [call])]
      exact ⟨⟨⟨called, (by simp)⟩, (by simp)⟩, ⟨rfl, rfl, rfl⟩, ih⟩

theorem IsHidden.foldFactorials {x : Tree Mark} (hidden : x.IsHidden) : x.foldFactorials.1.IsHidden := by
  obtain ⟨a, rfl, call, kind, letterless⟩ := hidden
  exact ⟨a, by simp [Tree.foldFactorials, kind], call, kind, letterless⟩

theorem Fit.foldFactorials {x : Tree Mark} {r : Mark → Prop} (fit : x.Fit Label.IsLiteral) (raw : x.Raw r) :
    x.foldFactorials.1.Fit Label.IsLiteral := by
  induction x with
  | leaf a =>
    simp only [Tree.foldFactorials]
    split
    · split
      · next formed =>
        exact fit.1.collapse_literal (Label.factorial_finite formed)
          (Quantity.simple_constant _).reduced (.inl ⟨_, rfl⟩)
      · exact fit
    · exact fit
  | group a inner ih => exact ⟨fit.1, fit.2.1, ih fit.2.2 raw.2.2⟩
  | fork a left right ihl ihr =>
    obtain ⟨label, operator, l, r⟩ := fit
    have undeferred : a.deferred = false := (Bool.or_eq_false_iff.mp raw.1.2).2
    have operator' (right' : Tree Mark) := operator.over (r := right') undeferred IsHidden.foldFactorials
    have folded := ihl l raw.2.1
    simp only [Tree.foldFactorials]
    cases first : left.foldFactorials with
    | mk y ended =>
      rw [first] at folded operator'
      cases ended with
      | error error => exact ⟨label, operator' _, folded, r⟩
      | ok done => exact ⟨label, operator' _, folded, ihr r raw.2.2⟩

/-- A number that stands on a leaf is finite. -/
theorem numberLeaf_finite {x : Tree Mark} {n : Float} (fit : x.Fit Label.IsLiteral)
    (found : x.numberLeaf? = some n) :
    isFinite n := by
  cases x with
  | leaf a =>
    simp only [numberLeaf?] at found
    split at found
    · next here => exact fit.2.number here.1 n found
    · cases found
  | group a inner => cases found
  | fork a left right => cases found

theorem head_letter {token : Token} {c : Char} (kind : token.kind = .letter) (spelled : token.Spelled)
    (head : token.text.toList.head? = some c) : 'a' ≤ c ∧ c ≤ 'z' := by
  obtain ⟨d, low, high, text⟩ : ∃ d, 'a' ≤ d ∧ d ≤ 'z' ∧ token.text.toList = [d] := by
    simpa [Token.Spelled, kind] using spelled
  rw [text] at head
  exact Option.some.inj head ▸ ⟨low, high⟩

theorem letterLeaf_named {x : Tree Mark} {c : Char} (fit : x.Fit Label.IsLiteral)
    (found : x.letterLeaf? = some c) :
    'a' ≤ c ∧ c ≤ 'z' := by
  cases x with
  | leaf a =>
    simp only [letterLeaf?] at found
    split at found
    · next here => exact head_letter here.1 (fit.2.letter here.1) found
    · cases found
  | group a inner => cases found
  | fork a left right => cases found

/-- What a term is recognized as. -/
theorem recognized_fit {x : Tree Mark} {v : Quantity} (fit : x.Fit Label.IsLiteral)
    (found : x.recognized? = some v) :
    v.IsFinite ∧ v.IsReduced ∧ v.IsElementary := by
  have monomial (found : x.monomial? = some v) : v.IsFinite ∧ v.IsReduced ∧ v.IsElementary := by
    unfold monomial? at found
    split at found
    · next a left b base exponent =>
      obtain ⟨-, -, l, -, -, fitBase, -⟩ := fit
      split at found
      · cases found
      · obtain ⟨coefficient, number, found⟩ := Option.bind_eq_some_iff.mp found
        split at found
        · cases found
        · obtain ⟨letter, name, found⟩ := Option.bind_eq_some_iff.mp found
          obtain ⟨power, _, rfl⟩ := Option.map_eq_some_iff.mp found
          obtain ⟨low, high⟩ := letterLeaf_named fitBase name
          have finite := Polynomial.monomial_finite (numberLeaf_finite l number) power letter
          refine ⟨?_, (Quantity.simple_normalized (Quantity.side_polynomial
            (Polynomial.monomial_named low high coefficient power))).reduced, ?_⟩
          · unfold Quantity.normalized
            split
            · exact finite.coefficient 0
            · exact finite
          · unfold Quantity.normalized
            split
            · exact .inl ⟨_, rfl⟩
            · exact .inr ⟨_, rfl⟩
    · cases found
  unfold recognized? at found
  split at found
  · next term same => exact monomial (same.trans found)
  · split at found
    · next here =>
      obtain ⟨letter, head, rfl⟩ := Option.map_eq_some_iff.mp found
      cases x with
      | leaf a =>
        obtain ⟨low, high⟩ := head_letter here.2 (fit.2.letter here.2) head
        have one : ((1.0 : Float) == 0.0) = false := rfl
        have finite : isFinite (1.0 : Float) := Decimal.IsRational.one.isFinite
        refine ⟨Polynomial.monomial_finite finite 1 letter, Quantity.polynomial_reduced
          (Polynomial.monomial_named low high 1.0 1) ?_, .inr ⟨_, rfl⟩⟩
        rw [Polynomial.degree_monomial one]
        exact Nat.one_ne_zero
      | group a inner => cases here.1
      | fork a left right => cases here.1
    · cases found

theorem IsHidden.recognize {x : Tree Mark} (hidden : x.IsHidden) : x.recognize.IsHidden := by
  obtain ⟨a, rfl, call, kind, letterless⟩ := hidden
  have unknown : (leaf a).recognized? = none := by simp [recognized?, monomial?, kind]
  exact ⟨a, by simp [Tree.recognize, unknown], call, kind, letterless⟩

theorem Fit.recognize {x : Tree Mark} {r : Mark → Prop} (fit : x.Fit Label.IsLiteral) (raw : x.Raw r) :
    x.recognize.Fit Label.IsLiteral := by
  have term {a : Mark} {y : Tree Mark} {v : Quantity} (label : a.IsFit) (fit : y.Fit Label.IsLiteral)
      (found : y.recognized? = some v) : (leaf (a.collapse v)).Fit Label.IsLiteral := by
    obtain ⟨finite, reduced, elementary⟩ := recognized_fit fit found
    exact label.collapse_literal finite reduced elementary
  induction x with
  | leaf a =>
    simp only [Tree.recognize]
    split
    · next found => exact term fit.1 fit found
    · exact fit
  | group a inner ih => exact ⟨fit.1, fit.2.1, ih fit.2.2 raw.2.2⟩
  | fork a left right ihl ihr =>
    simp only [Tree.recognize]
    split
    · next found => exact term fit.1.toIsFit fit found
    · obtain ⟨label, operator, l, r⟩ := fit
      exact ⟨label, operator.over (Bool.or_eq_false_iff.mp raw.1.2).2 IsHidden.recognize,
        ihl l raw.2.1, ihr r raw.2.2⟩

theorem isTerm_finite {q : Quantity} (term : Formula.isTerm q) (finite : q.IsFinite) :
    isFinite q.coef ∧ isFinite q.power := by
  cases q with
  | trig t => exact finite.2
  | log t => exact finite.2.2
  | _ => cases term

/-- A call stands around a finite number, or around a copy of its argument. -/
theorem callTerm_fit {x : Tree Mark} (worded : x.IsWorded)
    (amount : x.isLeaf → ∀ q ∈ x.top.value, q.AmountsFinite) (keyword : String)
    {before : Option Quantity} (finite : ∀ q ∈ before, q.IsFinite) :
    (x.callTerm keyword before).IsFinite ∧ (x.callTerm keyword before).IsReduced := by
  have one : isFinite (1.0 : Float) := Decimal.IsRational.one.isFinite
  have ten : isFinite (10.0 : Float) := by decide +kernel
  obtain ⟨argument, coef, power, fine, named, factor, exponent, same⟩ : ∃ argument coef power,
      argument.IsFinite ∧ argument.IsNamed ∧ isFinite coef ∧ isFinite power ∧ x.callTerm keyword
      before = (TrigFunction.ofName? keyword).elim (.log { argument, coef, power }) fun function =>
      .trig { function, argument, coef, power } := by
    refine ⟨_, _, _, ?_, ?_, ?_, ?_, by unfold callTerm; cases TrigFunction.ofName? keyword <;> rfl⟩
    · split
      · next isLeaf found =>
        obtain ⟨q, value, number⟩ := Option.bind_eq_some_iff.mp found
        exact amount isLeaf q value _ number
      · trivial
    · split
      · trivial
      · exact worded.outline
    · cases before with
      | none => exact one
      | some q =>
        simp only
        split
        · next term => exact (isTerm_finite term (finite q rfl)).1
        · exact one
    · cases before with
      | none => exact one
      | some q =>
        simp only
        split
        · next term => exact (isTerm_finite term (finite q rfl)).2
        · exact one
  rw [same]
  cases TrigFunction.ofName? keyword with
  | none => exact ⟨⟨ten, fine, factor, exponent⟩, Quantity.IsSimple.reduced ⟨⟨named, rfl⟩, by simp⟩⟩
  | some function => exact ⟨⟨fine, factor, exponent⟩, Quantity.IsSimple.reduced ⟨⟨named, rfl⟩, by simp⟩⟩

/-- A call gets its term, and nothing else changes but what is reduced. -/
theorem attachCall_fit {x : Tree Mark} (fit : x.Fit Label.IsLiteral) :
    ∃ value reduced, x.attachCall = { x.top with value, reduced } ∧
    (∀ q ∈ value, q.IsFinite ∧ q.IsReduced) ∧ (x.top.call = none → value = x.top.value) ∧
      ((∀ q ∈ x.top.value, Formula.isTerm q) → ∀ q ∈ value, Formula.isTerm q) := by
  have kept : ∃ value reduced, x.top = { x.top with value, reduced } ∧
      (∀ q ∈ value, q.IsFinite ∧ q.IsReduced) ∧ (x.top.call = none → value = x.top.value) ∧
      ((∀ q ∈ x.top.value, Formula.isTerm q) → ∀ q ∈ value, Formula.isTerm q) :=
    ⟨x.top.value, x.top.reduced, rfl, fit.top.value, fun _ => rfl, id⟩
  unfold attachCall
  split
  · next keyword term =>
    split
    · exact kept
    · refine ⟨some (x.callTerm keyword none), x.isLeaf, rfl, fun q same => Option.some.inj same ▸
        callTerm_fit (fit.worded fun _ literal => literal.word) (fun isLeaf => ?_) keyword
        (by simp), fun call => ?_,
        fun _ q same => Option.some.inj same ▸ isTerm_callTerm x keyword none⟩
      · cases x with
        | leaf a => exact fit.2.amount
        | group a inner => cases isLeaf
        | fork a left right => cases isLeaf
      · simp [Label.termKeyword?, call] at term
  · split
    · exact ⟨x.top.value, false, rfl, fit.top.value, fun _ => rfl, id⟩
    · exact kept

theorem attachNumber_fit {a : Mark} (fit : (leaf a).Fit Label.IsLiteral) :
    (leaf a.attachNumber).Fit Label.IsLiteral := by
  unfold Label.attachNumber
  split
  · next here =>
    split
    · next x read =>
      exact fit.1.collapse_literal (fit.2.number here.2 x read) (Quantity.simple_constant x).reduced
        (.inl ⟨x, rfl⟩)
    · exact fit
  · exact fit

theorem IsHidden.attachQuantities {x : Tree Mark} (hidden : x.IsHidden) (fit : x.Fit Label.IsLiteral) :
    x.attachQuantities.IsHidden := by
  obtain ⟨a, rfl, call, kind, letterless⟩ := hidden
  have number : a.attachNumber.call = none ∧ a.attachNumber.token.kind = .number ∧
      ∀ c ∈ a.attachNumber.token.text.toList, c.isAlpha = false := by
    unfold Label.attachNumber
    split
    · split
      · next x read =>
        have decimal := Decimal.sixPlaces_decimal (fit.2.number kind x read)
        exact ⟨call, rfl, fun c member => (decimal.2 c member).letterless.1⟩
      · exact ⟨call, kind, letterless⟩
    · exact ⟨call, kind, letterless⟩
  obtain ⟨value, reduced, same, -⟩ := attachCall_fit (attachNumber_fit fit)
  exact ⟨{ a.attachNumber with value, reduced }, by rw [Tree.attachQuantities, same]; rfl, number⟩

theorem Fit.attachQuantities {x : Tree Mark} {r : Mark → Prop} (fit : x.Fit Label.IsLiteral) (raw : x.Raw r) :
    x.attachQuantities.Fit Label.IsShown := by
  induction x with
  | leaf a =>
    have number := attachNumber_fit fit
    obtain ⟨value, reduced, same, fine, bare, -⟩ := attachCall_fit number
    rw [Tree.attachQuantities, same]
    refine ⟨⟨number.1.call, fine⟩, number.2.word, fun call q member => ?_⟩
    have old : value = a.attachNumber.value := bare call
    exact number.2.token call q (old ▸ member)
  | group a inner ih =>
    obtain ⟨value, reduced, same, fine, -, term⟩ := attachCall_fit fit
    rw [Tree.attachQuantities, same]
    exact ⟨⟨⟨fit.1.call, fine⟩, term fit.1.term⟩, fit.2.1, ih fit.2.2 raw.2.2⟩
  | fork a left right ihl ihr =>
    obtain ⟨value, reduced, same, fine, -, term⟩ := attachCall_fit fit
    obtain ⟨label, operator, l, r⟩ := fit
    rw [Tree.attachQuantities, same]
    have undeferred : a.deferred = false := (Bool.or_eq_false_iff.mp raw.1.2).2
    exact ⟨⟨⟨label.call, fine⟩, term label.term⟩,
      (operator.relabel (b := { a with value, reduced }) rfl rfl id).over undeferred fun hidden =>
      hidden.attachQuantities l,
      ihl l raw.2.1, ihr r raw.2.2⟩

/-- A text with finite numbers is prepared to a fit tree, also when one of its factorials fails. -/
theorem Fit.prepare {x : Tree Mark} {r : Mark → Prop} (fit : x.Fit Label.IsLiteral) (raw : x.Raw r) :
    x.prepare.1.Fit Label.IsShown := by
  have folded := fit.foldFactorials raw
  unfold Tree.prepare
  split
  · next y same =>
    have here : y = x.foldFactorials.1 := by rw [same]
    have raw' : y.Raw fun _ => True :=
      here ▸ raw.foldFactorials (by rw [same]) (fun _ _ => trivial) fun _ _ _ => trivial
    have recognized := Fit.recognize (here ▸ folded) raw'
    exact recognized.attachQuantities (r := fun _ => True)
      (raw'.recognize (fun _ _ _ => trivial) fun _ _ _ => trivial)
  · exact folded.leaves fun _ _ literal => literal.toIsShown

end Tree

end Stepwise
