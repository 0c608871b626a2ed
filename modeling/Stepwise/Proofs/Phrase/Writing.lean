import Stepwise.Proofs.Phrase.Build
import Stepwise.Proofs.Tree.Core

/-! Trees as they are written. Main statement: the text of a tree is that of a phrase, and the tree of the
phrase has the same core, when equations are not chained to the right and every letter keeps its exponent. -/
namespace Stepwise

open Expression (infixed)

variable {ν : Type}

theorem Token.spelled_symbol {token : Token} (spelled : token.Spelled) (rank : token.kind.rank?.isSome) :
    token.text = token.kind.symbol.toString := by
  unfold Token.Spelled at spelled
  cases kind : token.kind <;> simp [kind, Token.Kind.rank?] at rank <;>
    simp only [kind] at spelled <;> exact spelled

theorem Token.negative_numeral {text : String} (numeral : Token.IsNumeral text.toList) (kind : Token.Kind)
    (position : Option Nat) : Token.negative? ⟨kind, text, position⟩ = none := by
  obtain ⟨c, rest, headed, start⟩ := numeral.first
  unfold Token.negative?
  split
  · next same =>
    rw [headed] at same
    obtain rfl := (List.cons.inj same).1
    rcases start with digit | point
    · cases digit
    · cases point
  · rfl

theorem Token.negative_minus {digits : String} (position : Option Nat) :
    Token.negative? ⟨.number, "-" ++ digits, position⟩ = some digits := by
  simp [Token.negative?]

theorem Precedence.rank_le (p : Precedence) : p.rank ≤ 4 := by
  cases p <;> simp [Precedence.rank]

/-- What the operator of a kind asks of its operands is what brackets are put in for. -/
theorem infixed_eq {kind : Token.Kind} (rank : kind.rank?.isSome) (other : kind ≠ .equals) :
    ∃ own first second : Precedence, own.rank = kind.rank?.getD 0 ∧ kind.leftTier ≤ first.rank ∧
      kind.rightTier ≤ second.rank ∧
      ∀ left right token, token.kind = kind →
        infixed left token right = ⟨left.within first ++ token.text ++ right.within second, own⟩ := by
  cases kind with
  | plus | minus =>
    exact ⟨.sum, .sum, .product, rfl, Nat.le_refl _, Nat.le_refl _,
      fun left right token same => by simp [infixed, same]⟩
  | times | divide =>
    exact ⟨.product, .product, .power, rfl, Nat.le_refl _, Nat.le_refl _,
      fun left right token same => by simp [infixed, same]⟩
  | power =>
    exact ⟨.power, .atom, .power, rfl, Nat.le_refl _, Nat.le_refl _,
      fun left right token same => by simp [infixed, same]⟩
  | equals => exact absurd rfl other
  | _ => simp [Token.Kind.rank?] at rank

namespace Tree

theorem core_numeral {digits : String} (numeral : Token.IsNumeral digits.toList) (position : Option Nat) :
    (leaf { token := ⟨.number, digits, position⟩ } : Tree (Label ν)).core =
    leaf { token := .inserted .number digits } :=
  core_number (Token.negative_numeral numeral _ _)

theorem core_minus (digits : String) (position : Option Nat) :
    (leaf { token := ⟨.number, "-" ++ digits, position⟩ } : Tree (Label ν)).core =
      fork { token := .inserted .minus "-", unary := true } (leaf { token := .inserted .number "0" })
        (leaf { token := .inserted .number digits }) :=
  core_negative (Token.negative_minus position)

def IsBareFactorial (x : Tree (Label ν)) : Prop := x.top.call = none ∧ x.top.token.kind = .factorial

theorem BareFactorials.not_argument {x : Tree (Label ν)} {keyword : Token} (mark : keyword.kind.IsMark)
    (bare : (x.applyCall (some keyword)).BareFactorials) : ¬ x.IsBareFactorial := by
  rintro ⟨call, factorial⟩
  rw [applyCall_unmarked mark call] at bare
  have top := bare _ (top_mem _)
  rw [top_mapTop] at top
  cases top factorial

theorem BareFactorials.of_applyCall {x : Tree (Label ν)} {keyword : Token} (mark : keyword.kind.IsMark)
    (bare : (x.applyCall (some keyword)).BareFactorials) : x.BareFactorials := by
  cases call : x.top.call with
  | some _ =>
    rw [applyCall_marked mark (by simp [call])] at bare
    exact fun a member => bare a (List.mem_cons_of_mem _ member)
  | none =>
    rw [applyCall_unmarked mark call] at bare
    intro a member
    cases x with
    | leaf b => exact List.mem_singleton.mp member ▸ fun _ => call
    | group b inner =>
      rcases List.mem_cons.mp member with rfl | below
      · exact fun _ => call
      · exact bare a (List.mem_cons_of_mem _ below)
    | fork b left right =>
      rcases List.mem_cons.mp member with rfl | below
      · exact fun _ => call
      · exact bare a (List.mem_cons_of_mem _ below)

theorem BareFactorials.left {a : Label ν} {left right : Tree (Label ν)}
    (bare : (fork a left right).BareFactorials) :
    left.BareFactorials := fun b member => bare b (by simp [flatten, member])

theorem BareFactorials.right {a : Label ν} {left right : Tree (Label ν)}
    (bare : (fork a left right).BareFactorials) :
    right.BareFactorials := fun b member => bare b (by simp [flatten, member])

theorem call_applyCall (x : Tree (Label ν)) {keyword : Token} (mark : keyword.kind.IsMark) :
    (x.applyCall (some keyword)).top.call.isSome := by
  cases call : x.top.call with
  | some _ =>
    rw [applyCall_marked mark (by simp [call])]
    rfl
  | none =>
    rw [applyCall_unmarked mark call, top_mapTop]
    rfl

theorem value_applyCall {x : Tree (Label ν)} (value : x.top.value = none) (keyword : Option Token) :
    (x.applyCall keyword).top.value = none := by
  unfold applyCall
  split
  · exact value
  · split
    · rfl
    · split
      · rfl
      · rw [top_mapTop]
        exact value

variable [Content ν]

theorem rendered_leaf (token : Token) :
    (leaf { token } : Tree (Label ν)).rendered = Expression.renderToken token :=
  rfl

/-- An operator with its operands as they are written, unless it is hidden. -/
theorem rendered_fork {a : Label ν} {left right : Tree (Label ν)} (call : a.call = none)
    (unary : a.unary = false) (unit : ¬ isUnit a left) (other : a.token.kind.rank?.isSome)
    (equals : a.token.kind ≠ .equals) :
    (fork a left right).rendered = infixed left.rendered a.token right.rendered := by
  simp only [rendered, innerRendered, call, operatorRendered, unary, unit, Bool.false_eq_true, if_false]
  cases kind : a.token.kind <;> simp [kind, Token.Kind.rank?] at other equals ⊢

theorem rendered_equals {a : Label ν} {left right : Tree (Label ν)} (call : a.call = none)
    (unary : a.unary = false) (equals : a.token.kind = .equals) :
    (fork a left right).rendered = ⟨left.text ++ " = " ++ right.text, .equation⟩ := by
  simp [rendered, innerRendered, call, operatorRendered, unary, isUnit, equals, text]

theorem rendered_unit {a : Label ν} {left right : Tree (Label ν)} (call : a.call = none)
    (unary : a.unary = false) (unit : isUnit a left) :
    (fork a left right).rendered = right.rendered := by
  simp [rendered, innerRendered, call, operatorRendered, unary, unit]

theorem rendered_sign {a : Label ν} {left right : Tree (Label ν)} (call : a.call = none) (unary : a.unary) :
    (fork a left right).rendered = ⟨a.token.text ++ right.rendered.within .product, .sum⟩ := by
  simp [rendered, innerRendered, call, operatorRendered, unary]

/-- Only an equation binds as loosely as one. -/
theorem Grammatical.equation {x : Tree (Label ν)} (grammatical : x.Grammatical) (bare : x.BareFactorials)
    (loose : x.rendered.precedence = .equation) : x.top.token.kind = .equals ∧ x.top.call = none := by
  induction grammatical with
  | number kind spelled =>
    simp only [rendered_leaf, Expression.renderToken, kind] at loose
    split at loose <;> cases loose
  | negative numeral position =>
    simp only [rendered_leaf, Expression.renderToken] at loose
    split at loose <;> cases loose
  | factorial kind spelled large =>
    simp only [rendered_leaf, Expression.renderToken, kind] at loose
    cases loose
  | @power letter caret right isLetter named isCaret spelled exponent ih =>
    rw [rendered_fork rfl rfl (by simp [isUnit, isCaret]) (by simp [isCaret, Token.Kind.rank?])
      (by simp [isCaret])] at loose
    simp [infixed, isCaret] at loose
  | sign kind spelled operand ih =>
    rw [rendered_sign rfl rfl] at loose
    cases loose
  | @operator token left right rank spelled first second factor ihl ihr =>
    by_cases unit : isUnit ({ token } : Label ν) left
    · rw [rendered_unit rfl rfl unit] at loose
      obtain ⟨equals, unmarked⟩ := ihr bare.right loose
      have product : token.IsProduct := by
        simp only [isUnit, Bool.and_eq_true, beq_iff_eq] at unit
        exact unit.1
      have marked := factor product (.inl equals)
      simp [unmarked] at marked
    · by_cases equals : token.kind = .equals
      · exact ⟨equals, rfl⟩
      · rw [rendered_fork rfl rfl unit rank equals] at loose
        obtain ⟨own, _, _, level, _, _, shape⟩ := infixed_eq rank equals
        rw [shape _ _ _ rfl] at loose
        have loose : own = .equation := loose
        subst loose
        cases kind : token.kind <;> simp [kind, Token.Kind.rank?, Precedence.rank] at rank level equals
  | @call keyword x mark spelled argument ih =>
    have whole := bare.not_argument mark
    rw [rendered_applyCall mark argument.value fun unmarked factorial => whole ⟨unmarked, factorial⟩] at loose
    cases loose

end Tree

namespace Phrase

theorem value_tree (p : Phrase) (position : Nat) : (p.tree position : Tree (Label ν)).top.value = none := by
  induction p generalizing position with
  | call kind keyword argument ih => exact Tree.value_applyCall (ih _) _
  | bracket inner ih => exact ih _
  | sign kind operand ih =>
    rw [tree]
    split <;> rfl
  | _ => rfl

variable [Content ν]

/-- The phrase is written as the tree is, and read as a tree with the same core. -/
structure Writes (p : Phrase) (x : Tree (Label ν)) : Prop where
  valid : p.Valid
  chars : x.text.toList = p.chars
  tight : x.rendered.precedence.rank ≤ p.tier
  composed : ∀ name, p ≠ letter name
  rendered : ∀ position, (p.tree position : Tree (Label ν)).rendered = x.rendered
  core : ∀ position, (p.tree position : Tree (Label ν)).core = x.core
  factorial : ∀ position, (p.tree position : Tree (Label ν)).IsBareFactorial → x.IsBareFactorial

structure Stands (p : Phrase) (x : Tree (Label ν)) (required : Precedence) : Prop where
  valid : p.Valid
  chars : (x.rendered.within required).toList = p.chars
  tight : required.rank ≤ p.tier
  composed : ∀ name, p ≠ letter name
  rendered : ∀ position, (p.tree position : Tree (Label ν)).rendered = x.rendered
  core : ∀ position, (p.tree position : Tree (Label ν)).core = x.core

variable {p : Phrase} {x : Tree (Label ν)}

/-- An operand that binds too loosely stands in brackets. -/
theorem Writes.stands (writes : p.Writes x) (required : Precedence) : ∃ q : Phrase, q.Stands x required := by
  by_cases loose : x.rendered.precedence.rank < required.rank
  · refine ⟨bracket p, writes.valid, ?_, ?_, fun _ => by simp, fun position => writes.rendered _,
      fun position => writes.core _⟩
    · have written := writes.chars
      rw [Tree.text] at written
      simp [Rendered.within, loose, Phrase.chars, written]
    · cases required <;> simp [Precedence.rank, tier]
  · refine ⟨p, writes.valid, ?_, Nat.le_trans (Nat.le_of_not_lt loose) writes.tight,
      writes.composed, writes.rendered, writes.core⟩
    rw [Rendered.within, if_neg loose]
    exact writes.chars

theorem writes_number {token : Token} (kind : token.kind = .number) (spelled : token.Spelled) :
    (number token.text).Writes (.leaf { token } : Tree (Label ν)) := by
  obtain ⟨_, text, place⟩ := token
  obtain rfl : _ = Token.Kind.number := kind
  have numeral : Token.IsNumeral text.toList := spelled
  refine ⟨numeral, rfl, Precedence.rank_le _, fun _ => by simp, fun _ => rfl, fun _ => ?_,
    fun _ bare => by cases bare.2⟩
  rw [tree, Tree.core_numeral numeral, Tree.core_numeral numeral]

theorem writes_negative {digits : String} (numeral : Token.IsNumeral digits.toList) (place : Option Nat) :
    (sign .minus (number digits)).Writes
    (.leaf { token := ⟨.number, "-" ++ digits, place⟩ } : Tree (Label ν)) := by
  refine ⟨⟨.inr rfl, by simp [tier], numeral⟩, ?_, ?_, fun _ => by simp, fun _ => rfl, fun _ => ?_,
    fun _ bare => by cases bare.2⟩
  · simp [Tree.text, Tree.rendered_leaf, Expression.renderToken, Phrase.chars, Token.Kind.symbol]
  · simp [Tree.rendered_leaf, Expression.renderToken, Precedence.rank, tier]
  · rw [Tree.core_minus]
    exact Tree.core_minus digits _

theorem writes_factorial {token : Token} (kind : token.kind = .factorial) (spelled : token.Spelled)
    (large : Expression.Builder.smallWhole? token.text = none) :
    (factorial token.text).Writes (.leaf { token } : Tree (Label ν)) := by
  obtain ⟨_, text, place⟩ := token
  obtain rfl : _ = Token.Kind.factorial := kind
  have numeral : Token.IsNumeral text.toList := spelled
  refine ⟨⟨numeral, large⟩, ?_, Precedence.rank_le _, fun _ => by simp, fun _ => rfl, fun _ => rfl,
    fun _ _ => ⟨rfl, rfl⟩⟩
  simp [Tree.text, Tree.rendered_leaf, Expression.renderToken, Phrase.chars]

theorem rendered_symbol {kind : Token.Kind} (rank : kind.rank?.isSome) (equals : kind ≠ .equals)
    (position : Nat) (left right : Tree (Label ν)) {token : Token} (same : token.kind = kind)
    (text : token.text = kind.symbol.toString) :
    (Tree.fork { token := .symbol kind position } left right).rendered =
    infixed left.rendered token right.rendered := by
  rw [Tree.rendered_fork rfl rfl (by simp [Tree.isUnit, Token.symbol, Token.isInserted]) rank equals]
  obtain ⟨_, _, _, _, _, _, shape⟩ := infixed_eq rank equals
  rw [shape _ _ _ same, shape _ _ _ rfl, text]
  rfl

omit [Content ν] in
theorem core_symbol {token : Token} (text : token.text = token.kind.symbol.toString) (position : Nat) :
    ({ token := .symbol token.kind position } : Label ν).unplaced = ({ token } : Label ν).unplaced := by
  simp [Label.unplaced, Token.unplaced, Token.symbol, text]

variable {q : Phrase} {left right : Tree (Label ν)} {token : Token}

/-- A hidden coefficient is not written. -/
theorem writes_unit (unit : Tree.isUnit ({ token } : Label ν) left) (factor : right.IsFactor)
    (r : q.Writes right) :
    q.Writes (.fork { token } left right) where
  valid := r.valid
  chars := by rw [Tree.text, Tree.rendered_unit rfl rfl unit, ← Tree.text, r.chars]
  tight := by rw [Tree.rendered_unit rfl rfl unit]; exact r.tight
  composed := r.composed
  rendered position := by rw [r.rendered, Tree.rendered_unit rfl rfl unit]
  core position := by rw [r.core, Tree.core_unit unit]; rfl
  factorial position bare := by
    obtain ⟨unmarked, factorial⟩ := r.factorial position bare
    have marked := factor (.inr factorial)
    simp [unmarked] at marked

/-- An operator that is not hidden is written between its operands. -/
theorem writes_operator (rank : token.kind.rank?.isSome) (spelled : token.Spelled)
    (equals : token.kind ≠ .equals) (unit : ¬ Tree.isUnit ({ token } : Label ν) left)
    (l : p.Writes left) (r : q.Writes right) :
    ∃ o : Phrase, o.Writes (.fork { token } left right) := by
  have text := Token.spelled_symbol spelled rank
  obtain ⟨own, first, second, level, fitl, fitr, shape⟩ := infixed_eq rank equals
  obtain ⟨a, standsl⟩ := l.stands first
  obtain ⟨b, standsr⟩ := r.stands second
  have written : (Tree.fork { token } left right).rendered = infixed left.rendered token right.rendered :=
    Tree.rendered_fork rfl rfl unit rank equals
  refine ⟨operator token.kind a b, ⟨rank, standsl.valid, standsr.valid, Nat.le_trans fitl standsl.tight,
    Nat.le_trans fitr standsr.tight, fun lone => absurd lone.choose_spec (standsl.composed _)⟩, ?_,
    ?_, fun _ => by simp, ?_, ?_, ?_⟩
  · rw [Tree.text, written, shape _ _ _ rfl]
    simp [standsl.chars, standsr.chars, Phrase.chars, gap, equals, text]
  · rw [written, shape _ _ _ rfl]
    exact Nat.le_of_eq level
  · intro position
    rw [written, tree, rendered_symbol rank equals _ _ _ rfl text, standsl.rendered, standsr.rendered]
  · intro position
    rw [tree, Tree.core_fork (by simp [Tree.isUnit, Token.symbol, Token.isInserted]),
      Tree.core_fork unit, core_symbol text, standsl.core, standsr.core]
  · intro position bare
    have factorial : token.kind = .factorial := bare.2
    simp [factorial, Token.Kind.rank?] at rank

theorem writes_equals (kind : token.kind = .equals) (spelled : token.Spelled) (l : p.Writes left)
    (r : q.Writes right) (tight : 1 ≤ q.tier) :
    (operator .equals p q).Writes (.fork { token } left right) := by
  have text := Token.spelled_symbol spelled (by simp [kind, Token.Kind.rank?])
  have unit (a : Label ν) (same : a.token.kind = .equals) (y : Tree (Label ν)) : ¬ Tree.isUnit a y := by
    simp [Tree.isUnit, same]
  have written : (Tree.fork { token } left right).rendered = ⟨left.text ++ " = " ++ right.text, .equation⟩ :=
    Tree.rendered_equals rfl rfl kind
  refine ⟨⟨rfl, l.valid, r.valid, Nat.zero_le _, tight, fun lone => absurd lone.choose_spec
    (l.composed _)⟩, ?_, ?_, fun _ => by simp, ?_, ?_, fun _ bare => by cases bare.2⟩
  · rw [Tree.text, written]
    simp [l.chars, r.chars, Phrase.chars, gap, Token.Kind.symbol]
  · rw [written]
    exact Nat.zero_le _
  · intro position
    rw [written, tree, Tree.rendered_equals rfl rfl rfl]
    simp only [Tree.text, l.rendered, r.rendered]
  · intro position
    rw [tree, Tree.core_fork (unit _ rfl _), Tree.core_fork (unit _ kind _), ← kind,
      core_symbol text, l.core, r.core]

theorem writes_sign (kind : token.kind = .plus ∨ token.kind = .minus) (spelled : token.Spelled)
    (r : q.Writes right) :
    ∃ o : Phrase, o.Writes
      (.fork { token, unary := true } (.leaf { token := .inserted .number "0" }) right) := by
  have rank : token.kind.rank?.isSome := by rcases kind with kind | kind <;> simp [kind, Token.Kind.rank?]
  have unit (a : Label ν) (same : a.token.kind = token.kind) (y : Tree (Label ν)) : ¬ Tree.isUnit a y := by
    rcases kind with kind | kind <;> simp [Tree.isUnit, same, kind]
  have text := Token.spelled_symbol spelled rank
  obtain ⟨a, stands⟩ := r.stands .product
  let zero : Tree (Label ν) := .leaf { token := .inserted .number "0" }
  have written : (Tree.fork { token, unary := true } zero right).rendered =
      ⟨token.text ++ right.rendered.within .product, .sum⟩ := Tree.rendered_sign rfl rfl
  have place (position : Nat) : ({ token := .symbol token.kind position, unary := true } : Label ν).unplaced =
      ({ token, unary := true } : Label ν).unplaced := by
    simp [Label.unplaced, Token.unplaced, Token.symbol, text]
  refine ⟨sign token.kind a, ⟨kind, stands.tight, stands.valid⟩, ?_, ?_, fun _ => by simp, ?_, ?_, ?_⟩
  · rw [Tree.text, written]
    simp [stands.chars, Phrase.chars, text]
  · rw [written]
    exact Nat.le_refl 1
  · intro position
    rw [written, tree]
    cases negative : negated? token.kind a with
    | some digits =>
      obtain ⟨minus, rfl⟩ := of_negated negative
      have shown : right.rendered.within .product = digits := String.toList_inj.mp stands.chars
      simp [Tree.rendered_leaf, Expression.renderToken, shown, text, minus, Token.Kind.symbol]
    | none =>
      have same : (Token.symbol token.kind position).text = token.text := text.symm
      simp only [Tree.rendered_sign, stands.rendered, same]
  · intro position
    rw [tree, Tree.core_fork (unit _ rfl _), ← stands.core (position + 1)]
    cases negative : negated? token.kind a with
    | some digits =>
      obtain ⟨minus, rfl⟩ := of_negated negative
      have numeral : Token.IsNumeral digits.toList := stands.valid
      have zero_core : zero.core = zero := Tree.core_numeral (.whole (by simp) (by simp)) none
      have labelEq : ({ token, unary := true } : Label ν).unplaced =
          { token := .inserted .minus "-", unary := true } := by
        simp [Label.unplaced, Token.unplaced, text, minus, Token.Kind.symbol, Token.inserted]
      rw [tree, Tree.core_numeral numeral, zero_core, labelEq]
      exact Tree.core_minus digits _
    | none => rw [Tree.core_fork (unit _ rfl _), place]
  · intro position bare
    rw [tree] at bare
    cases negative : negated? token.kind a with
    | some digits =>
      simp only [negative] at bare
      cases bare.2
    | none =>
      simp only [negative] at bare
      have factorial : token.kind = .factorial := bare.2
      simp [factorial, Token.Kind.rank?] at rank

/-- A letter with its coefficient hidden is written as its power. -/
theorem rendered_ofLetter (letter caret : Token) (power : caret.kind = .power) (exponent : Tree (Label ν)) :
    (Tree.ofLetter (.inserted .number "1") letter caret exponent).rendered =
      infixed (Tree.leaf { token := letter } : Tree (Label ν)).rendered caret exponent.rendered := by
  rw [Tree.ofLetter, Tree.rendered_unit rfl rfl rfl, Tree.rendered_fork rfl rfl] <;>
    simp [Tree.isUnit, power, Token.Kind.rank?]

omit [Content ν] in
theorem core_ofLetter (letter caret : Token) (power : caret.kind = .power) (exponent : Tree (Label ν)) :
    (Tree.ofLetter (.inserted .number "1") letter caret exponent : Tree (Label ν)).core =
      .fork ({ token := caret } : Label ν).unplaced
      (Tree.leaf { token := letter } : Tree (Label ν)).core exponent.core := by
  rw [Tree.ofLetter, Tree.core_unit rfl, Tree.core_fork (by simp [Tree.isUnit, power])]
  rfl

/-- A letter is read with an inserted coefficient, which is not written. -/
theorem read_ofLetter {letter : Token} (isLetter : letter.kind = .letter)
    (kind : token.kind = .power) (spelled : token.Spelled) {y : Tree (Label ν)}
    (rendered : y.rendered = right.rendered) (core : y.core = right.core) (position place : Nat) :
    let read : Tree (Label ν) :=
      .ofLetter (.inserted .number "1") ⟨.letter, letter.text, some position⟩ (.symbol .power place) y
    read.rendered = (Tree.fork { token } (.leaf { token := letter }) right : Tree (Label ν)).rendered ∧
      read.core = (Tree.fork { token } (.leaf { token := letter }) right : Tree (Label ν)).core := by
  have text : token.text = Token.Kind.power.symbol.toString := by
    simpa [kind] using Token.spelled_symbol spelled (by simp [kind, Token.Kind.rank?])
  have unit : ¬ Tree.isUnit ({ token } : Label ν) (.leaf { token := letter }) := by simp [Tree.isUnit, kind]
  constructor
  · rw [rendered_ofLetter _ _ rfl,
      Tree.rendered_fork rfl rfl unit (by simp [kind, Token.Kind.rank?]) (by simp [kind]), rendered]
    simp [Tree.rendered_leaf, Expression.renderToken, isLetter, infixed, kind, Token.symbol, text]
  · rw [core_ofLetter _ _ rfl, Tree.core_fork unit, core]
    simp [Tree.core, Token.negative?, isLetter, Label.unplaced, Token.unplaced, Token.symbol, kind, text]

/-- A letter keeps an exponent that is a number or that stands in brackets. -/
theorem writes_power {letter : Token} (isLetter : letter.kind = .letter) (named : letter.Spelled)
    (kind : token.kind = .power) (spelled : token.Spelled) (r : q.Writes right)
    (exponent : right.IsExponent) (grammatical : right.Grammatical) :
    ∃ o : Phrase, o.Writes (.fork { token } (.leaf { token := letter }) right) := by
  have name : ∃ c, 'a' ≤ c ∧ c ≤ 'z' ∧ letter.text.toList = [c] := by
    simpa [Token.Spelled, isLetter] using named
  have text : token.text = Token.Kind.power.symbol.toString := by
    simpa [kind] using Token.spelled_symbol spelled (by simp [kind, Token.Kind.rank?])
  have written : (Tree.fork { token } (.leaf { token := letter }) right : Tree (Label ν)).rendered =
      ⟨letter.text ++ token.text ++ right.rendered.within .power, .power⟩ := by
    rw [Tree.rendered_fork rfl rfl (by simp [Tree.isUnit, kind]) (by simp [kind, Token.Kind.rank?])
      (by simp [kind])]
    simp [Tree.rendered_leaf, Expression.renderToken, isLetter, infixed, kind, Rendered.within,
      Precedence.rank]
  have shown := r.chars
  rw [Tree.text] at shown
  by_cases loose : right.rendered.precedence.rank < Precedence.power.rank
  · have read (position : Nat) := read_ofLetter isLetter kind spelled (r.rendered (position + 3))
      (r.core (position + 3)) position (position + 1)
    refine ⟨raised letter.text q, ⟨name, r.valid⟩, ?_, Precedence.rank_le _,
      fun _ => by simp, fun position => (read position).1, fun position => (read position).2,
      fun _ bare => by cases bare.2⟩
    rw [Tree.text, written]
    simp [Rendered.within, loose, shown, text, Phrase.chars, Token.Kind.symbol]
  · rcases exponent with ⟨leaf, number, call⟩ | loose'
    · cases grammatical with
      | @number digits kind' spelled' =>
        have numeral : Token.IsNumeral digits.text.toList := by simpa [Token.Spelled, kind'] using spelled'
        have writesExponent := writes_number (ν := ν) kind' spelled'
        have read (position : Nat) :=
          read_ofLetter isLetter kind spelled (writesExponent.rendered (position + 2))
          (writesExponent.core (position + 2)) position (position + 1)
        refine ⟨power letter.text digits.text, ⟨name, numeral⟩, ?_, Precedence.rank_le _, fun _ => by simp,
          fun position => (read position).1, fun position => (read position).2, fun _ bare => by cases bare.2⟩
        have shown := writesExponent.chars
        rw [Tree.text] at shown
        rw [Tree.text, written]
        simp [Rendered.within, loose, shown, text, Phrase.chars, Token.Kind.symbol]
      | negative numeral place =>
        simp [Tree.rendered_leaf, Expression.renderToken, Precedence.rank] at loose
      | factorial kind' => simp [kind'] at number
      | power | sign | operator => cases leaf
      | @call keyword y mark =>
        have marked := Tree.call_applyCall y mark
        simp [call] at marked
    · exact absurd loose' loose

theorem writes_call {keyword : Token} (mark : keyword.kind.IsMark) (spelled : keyword.Spelled)
    (argument : q.Writes x) (value : x.top.value = none) (whole : ¬ x.IsBareFactorial) :
    (call keyword.kind keyword.text q).Writes (x.applyCall (some keyword)) := by
  have written := Tree.rendered_applyCall mark value fun unmarked factorial => whole ⟨unmarked, factorial⟩
  have text := argument.chars
  rw [Tree.text] at text
  let read (position : Nat) : Token := ⟨keyword.kind, keyword.text, some position⟩
  have kindMark (position : Nat) : (read position).kind.IsMark := mark
  refine ⟨⟨mark.isCall.1, spelled, argument.valid⟩, ?_, Precedence.rank_le _, fun _ => by simp, ?_, ?_, ?_⟩
  · rw [Tree.text, written]
    simp [text, Phrase.chars]
  · intro position
    rw [written, tree, Tree.rendered_applyCall (kindMark position) (value_tree _ _)
      fun unmarked factorial => whole (argument.factorial _ ⟨unmarked, factorial⟩), argument.rendered]
  · intro position
    rw [tree, Tree.core_applyCall _ mark, Tree.core_applyCall _ (kindMark position), argument.core]
    rfl
  · rintro position ⟨unmarked, _⟩
    have marked := Tree.call_applyCall
      (q.tree (position + keyword.text.toList.length + 1) : Tree (Label ν)) (kindMark position)
    rw [tree] at unmarked
    simp [read, unmarked] at marked

end Phrase

/-- A grammatical tree is written as a phrase, and the tree of the phrase has the same core. -/
theorem Tree.Grammatical.writes [Content ν] {x : Tree (Label ν)} (grammatical : x.Grammatical)
    (bare : x.BareFactorials) (unchained : x.Unchained) (keeps : x.KeepsExponents) :
    ∃ p : Phrase, p.Writes x := by
  induction grammatical with
  | number kind spelled => exact ⟨_, Phrase.writes_number kind spelled⟩
  | negative numeral place => exact ⟨_, Phrase.writes_negative numeral place⟩
  | factorial kind spelled large => exact ⟨_, Phrase.writes_factorial kind spelled large⟩
  | power isLetter named isCaret spelled exponent ih =>
    obtain ⟨q, writes⟩ := ih bare.right unchained.2.2 keeps.2.2
    exact Phrase.writes_power isLetter named isCaret spelled writes (keeps.1 isCaret isLetter) exponent
  | sign kind spelled operand ih =>
    obtain ⟨q, writes⟩ := ih bare.right unchained.2.2 keeps.2.2
    exact Phrase.writes_sign kind spelled writes
  | @operator token left right rank spelled first second factor ihl ihr =>
    obtain ⟨p, l⟩ := ihl bare.left unchained.2.1 keeps.2.1
    obtain ⟨q, r⟩ := ihr bare.right unchained.2.2 keeps.2.2
    by_cases unit : isUnit ({ token } : Label ν) left
    · have product : token.IsProduct := by
        simp only [isUnit, Bool.and_eq_true, beq_iff_eq] at unit
        exact unit.1
      exact ⟨q, Phrase.writes_unit unit (factor product) r⟩
    by_cases equals : token.kind = .equals
    · refine ⟨_, Phrase.writes_equals equals spelled l r (Nat.le_trans ?_ r.tight)⟩
      cases loose : right.rendered.precedence with
      | equation =>
        obtain ⟨chained, unmarked⟩ := second.equation bare.right loose
        have marked := unchained.1 equals chained
        simp [unmarked] at marked
      | _ => simp [Precedence.rank]
    · exact Phrase.writes_operator rank spelled equals unit l r
  | call mark spelled argument ih =>
    obtain ⟨q, writes⟩ := ih (bare.of_applyCall mark) (unchained.of_applyCall mark fun _ _ _ same => same)
      (keeps.of_applyCall mark fun _ _ _ same => same)
    exact ⟨_, Phrase.writes_call mark spelled writes argument.value (bare.not_argument mark)⟩

end Stepwise
