import Stepwise.Proofs.Phrase.Reading
import Stepwise.Proofs.Phrase.Writing

/-! What the text of a tree tells about it. Main statement: trees that are written alike have the
same core, when no keyword stands on a factorial and no equation is the right side of another. -/
namespace Stepwise

open Token (inserted)

variable {ν : Type} [Content ν]

namespace Phrase

/-- The phrase is written as the tree is, and has its core. -/
structure Tells (p : Phrase) (x : Tree (Label ν)) : Prop where
  spelled : p.Spelled
  fits : p.Fits
  chars : x.text.toList = p.chars
  tight : x.rendered.precedence.rank ≤ p.tier
  core : (p.core : Tree (Label ν)) = x.core

variable {p q : Phrase} {x left right : Tree (Label ν)} {token : Token}

/-- An operand that binds too loosely stands in brackets. -/
theorem Tells.within (tells : p.Tells x) (required : Precedence) : ∃ q : Phrase, q.Spelled ∧ q.Fits ∧
    (x.rendered.within required).toList = q.chars ∧ required.rank ≤ q.tier ∧
    (q.core : Tree (Label ν)) = x.core := by
  have written := tells.chars
  rw [Tree.text] at written
  by_cases loose : x.rendered.precedence.rank < required.rank
  · refine ⟨bracket p, tells.spelled, tells.fits, ?_, Precedence.rank_le _, tells.core⟩
    simp [Rendered.within, loose, Phrase.chars, written]
  · refine ⟨p, tells.spelled, tells.fits, ?_, Nat.le_trans (Nat.le_of_not_lt loose) tells.tight, tells.core⟩
    rw [Rendered.within, if_neg loose]
    exact written

theorem tells_number (kind : token.kind = .number) (spelled : token.Spelled) :
    (number token.text).Tells (.leaf { token } : Tree (Label ν)) := by
  obtain ⟨_, text, place⟩ := token
  obtain rfl : _ = Token.Kind.number := kind
  have numeral : Token.IsNumeral text.toList := spelled
  exact ⟨numeral, trivial, rfl, Precedence.rank_le _, (Tree.core_numeral numeral place).symm⟩

theorem tells_negative {digits : String} (numeral : Token.IsNumeral digits.toList) (place : Option Nat) :
    (sign .minus (number digits)).Tells
    (.leaf { token := ⟨.number, "-" ++ digits, place⟩ } : Tree (Label ν)) := by
  refine ⟨⟨.inr rfl, numeral⟩, ⟨.inr rfl, by simp [tier], trivial⟩, ?_, ?_,
    (Tree.core_minus digits place).symm⟩
  · simp [Tree.text, Tree.rendered_leaf, Expression.renderToken, Phrase.chars, Token.Kind.symbol]
  · simp [Tree.rendered_leaf, Expression.renderToken, Precedence.rank, tier]

theorem tells_factorial (kind : token.kind = .factorial) (spelled : token.Spelled) :
    (factorial token.text).Tells (.leaf { token } : Tree (Label ν)) := by
  obtain ⟨_, text, place⟩ := token
  obtain rfl : _ = Token.Kind.factorial := kind
  have numeral : Token.IsNumeral text.toList := spelled
  refine ⟨numeral, trivial, ?_, Precedence.rank_le _, rfl⟩
  simp [Tree.text, Tree.rendered_leaf, Expression.renderToken, Phrase.chars]

theorem tells_letter (kind : token.kind = .letter) (spelled : token.Spelled) :
    (letter token.text).Tells (.leaf { token } : Tree (Label ν)) := by
  obtain ⟨_, text, place⟩ := token
  obtain rfl : _ = Token.Kind.letter := kind
  exact ⟨spelled, trivial, rfl, Precedence.rank_le _, rfl⟩

theorem core_inserted {ν : Type} (text : token.text = token.kind.symbol.toString) (unary : Bool) :
    ({ token := inserted token.kind token.kind.symbol.toString, unary } : Label ν) =
    ({ token, unary } : Label ν).unplaced := by
  rw [← text]
  rfl

/-- An operator that is not hidden is written between its operands. -/
theorem tells_operator (rank : token.kind.rank?.isSome) (spelled : token.Spelled)
    (equals : token.kind ≠ .equals) (unit : ¬ Tree.isUnit ({ token } : Label ν) left)
    (l : p.Tells left) (r : q.Tells right) :
    ∃ o : Phrase, o.Tells (.fork { token } left right) := by
  have text := Token.spelled_symbol spelled rank
  obtain ⟨own, first, second, level, fitl, fitr, shape⟩ := infixed_eq rank equals
  obtain ⟨a, spelledl, fitsl, charsl, tightl, corel⟩ := l.within first
  obtain ⟨b, spelledr, fitsr, charsr, tightr, corer⟩ := r.within second
  have written : (Tree.fork { token } left right).rendered =
      Expression.infixed left.rendered token right.rendered :=
    Tree.rendered_fork rfl rfl unit rank equals
  refine ⟨operator token.kind a b, ⟨rank, spelledl, spelledr⟩,
    ⟨rank, fitsl, fitsr, Nat.le_trans fitl tightl, Nat.le_trans fitr tightr⟩, ?_, ?_, ?_⟩
  · rw [Tree.text, written, shape _ _ _ rfl]
    simp [charsl, charsr, Phrase.chars, gap, equals, text]
  · rw [written, shape _ _ _ rfl]
    exact Nat.le_of_eq level
  · rw [core, Tree.core_fork unit, core_inserted text, corel, corer]

theorem tells_equals (kind : token.kind = .equals) (spelled : token.Spelled) (l : p.Tells left)
    (r : q.Tells right) (tight : 1 ≤ q.tier) :
    (operator .equals p q).Tells (.fork { token } left right) := by
  have text := Token.spelled_symbol spelled (by simp [kind, Token.Kind.rank?])
  have unit : ¬ Tree.isUnit ({ token } : Label ν) left := by simp [Tree.isUnit, kind]
  have written : (Tree.fork { token } left right).rendered = ⟨left.text ++ " = " ++ right.text, .equation⟩ :=
    Tree.rendered_equals rfl rfl kind
  refine ⟨⟨rfl, l.spelled, r.spelled⟩, ⟨rfl, l.fits, r.fits, Nat.zero_le _, tight⟩, ?_, ?_, ?_⟩
  · rw [Tree.text, written]
    simp [l.chars, r.chars, Phrase.chars, gap, Token.Kind.symbol]
  · rw [written]
    exact Nat.zero_le _
  · rw [core, ← kind, Tree.core_fork unit, core_inserted text, l.core, r.core]

theorem tells_sign (kind : token.kind = .plus ∨ token.kind = .minus) (spelled : token.Spelled)
    (r : q.Tells right) :
    ∃ o : Phrase, o.Tells
      (.fork { token, unary := true } (.leaf { token := .inserted .number "0" }) right) := by
  have rank : token.kind.rank?.isSome := by rcases kind with kind | kind <;> simp [kind, Token.Kind.rank?]
  have unit : ¬ Tree.isUnit ({ token, unary := true } : Label ν)
      (.leaf { token := .inserted .number "0" }) := by
    rcases kind with kind | kind <;> simp [Tree.isUnit, kind]
  have text := Token.spelled_symbol spelled rank
  have zero : (Tree.leaf { token := .inserted .number "0" } : Tree (Label ν)).core =
      .leaf { token := .inserted .number "0" } :=
    Tree.core_numeral (.whole (by simp) (by simp)) none
  obtain ⟨a, spelleda, fits, chars, tight, coreEq⟩ := r.within .product
  have written :
    (Tree.fork { token, unary := true } (.leaf { token := .inserted .number "0" }) right).rendered =
    ⟨token.text ++ right.rendered.within .product, .sum⟩ := Tree.rendered_sign rfl rfl
  refine ⟨sign token.kind a, ⟨kind, spelleda⟩, ⟨kind, tight, fits⟩, ?_, ?_, ?_⟩
  · rw [Tree.text, written]
    simp [chars, Phrase.chars, text]
  · rw [written]
    exact Nat.le_refl 1
  · rw [core, Tree.core_fork unit, core_inserted text, zero, coreEq]

/-- A hidden coefficient is not written. -/
theorem tells_unit (unit : Tree.isUnit ({ token } : Label ν) left) (r : q.Tells right) :
    q.Tells (.fork { token } left right) where
  spelled := r.spelled
  fits := r.fits
  chars := by rw [Tree.text, Tree.rendered_unit rfl rfl unit, ← Tree.text, r.chars]
  tight := by rw [Tree.rendered_unit rfl rfl unit]; exact r.tight
  core := by rw [r.core, Tree.core_unit unit]; rfl

theorem tells_call {keyword : Token} (mark : keyword.kind.IsMark) (spelled : keyword.Spelled)
    (argument : q.Tells x) (value : x.top.value = none) (whole : ¬ x.IsBareFactorial) :
    (call keyword.kind keyword.text q).Tells (x.applyCall (some keyword)) := by
  have written := Tree.rendered_applyCall mark value fun unmarked factorial => whole ⟨unmarked, factorial⟩
  have text := argument.chars
  rw [Tree.text] at text
  refine ⟨⟨mark.isCall.1, spelled, argument.spelled⟩, ⟨mark.isCall.1, argument.fits⟩, ?_,
    Precedence.rank_le _, ?_⟩
  · rw [Tree.text, written]
    simp [text, Phrase.chars]
  · rw [core, argument.core, Tree.core_applyCall x mark]
    rfl

end Phrase

namespace Tree.Grammatical

variable {x y : Tree (Label ν)}

/-- A grammatical tree is written as a phrase with its core. -/
theorem tells (grammatical : x.Grammatical) (bare : x.BareFactorials) (unchained : x.Unchained) :
    ∃ p : Phrase, p.Tells x := by
  induction grammatical with
  | number kind spelled => exact ⟨_, Phrase.tells_number kind spelled⟩
  | negative numeral place => exact ⟨_, Phrase.tells_negative numeral place⟩
  | factorial kind spelled large => exact ⟨_, Phrase.tells_factorial kind spelled⟩
  | power isLetter named isCaret spelled exponent ih =>
    obtain ⟨q, tells⟩ := ih bare.right unchained.2.2
    have base := Phrase.tells_letter (ν := ν) isLetter named
    exact Phrase.tells_operator (by simp [isCaret, Token.Kind.rank?]) spelled (by simp [isCaret])
      (by simp [isUnit, isCaret]) base tells
  | sign kind spelled operand ih =>
    obtain ⟨q, tells⟩ := ih bare.right unchained.2.2
    exact Phrase.tells_sign kind spelled tells
  | @operator token left right rank spelled first second factor ihl ihr =>
    obtain ⟨p, l⟩ := ihl bare.left unchained.2.1
    obtain ⟨q, r⟩ := ihr bare.right unchained.2.2
    by_cases unit : isUnit ({ token } : Label ν) left
    · exact ⟨q, Phrase.tells_unit unit r⟩
    by_cases equals : token.kind = .equals
    · refine ⟨_, Phrase.tells_equals equals spelled l r (Nat.le_trans ?_ r.tight)⟩
      cases loose : right.rendered.precedence with
      | equation =>
        obtain ⟨chained, unmarked⟩ := second.equation bare.right loose
        have marked := unchained.1 equals chained
        simp [unmarked] at marked
      | _ => simp [Precedence.rank]
    · exact Phrase.tells_operator rank spelled equals unit l r
  | call mark spelled argument ih =>
    obtain ⟨q, tells⟩ := ih (bare.of_applyCall mark) (unchained.of_applyCall mark fun _ _ _ same => same)
    exact ⟨_, Phrase.tells_call mark spelled tells argument.value (bare.not_argument mark)⟩

/-- Trees that are written alike have the same core. -/
theorem core_eq (first : x.Grammatical) (second : y.Grammatical) (bare : x.BareFactorials)
    (bare' : y.BareFactorials) (unchained : x.Unchained) (unchained' : y.Unchained)
    (same : x.text = y.text) : x.core = y.core := by
  obtain ⟨p, tells⟩ := first.tells bare unchained
  obtain ⟨q, tells'⟩ := second.tells bare' unchained'
  have chars : p.chars = q.chars := by rw [← tells.chars, ← tells'.chars, same]
  rw [← tells.core, ← tells'.core]
  exact Phrase.core_unique tells.spelled tells'.spelled tells.fits tells'.fits chars

end Tree.Grammatical

end Stepwise
