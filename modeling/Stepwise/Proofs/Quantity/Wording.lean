import Stepwise.Proofs.Quantity.Reduced

/-! Quantities as they are written. Main statements: a quantity with finite numbers is written
without an infinity or NaN, and one that is written without a letter is a number. -/
namespace Stepwise

open Text
open Decimal (isFinite IsRational)

namespace Decimal

def IsDecimal (c : Char) : Prop := c.isDigit ∨ c = '.' ∨ c = '-'

theorem IsDecimal.letterless {c : Char} (decimal : IsDecimal c) : c.isAlpha = false ∧ c ≠ ' ' := by
  rcases decimal with digit | rfl | rfl
  · exact ⟨by grind [Char.isDigit, Char.isAlpha, Char.isUpper, Char.isLower], by rintro rfl; cases digit⟩
  · decide
  · decide

theorem mem_numeral {digits : List Char} (numeral : Token.IsNumeral digits) {c : Char}
    (member : c ∈ digits) : IsDecimal c := by
  cases numeral with
  | whole nonempty all => exact .inl (all c member)
  | point all nonempty allBehind =>
    rcases List.mem_append.mp member with member | member
    · exact .inl (all c member)
    · rcases List.mem_cons.mp member with rfl | member
      · exact .inr (.inl rfl)
      · exact .inl (allBehind c member)

/-- A finite double is written as a numeral, which may have a minus sign in front of it. -/
theorem sixPlaces_numeral {x : Float} (finite : isFinite x) : ∃ digits, Token.IsNumeral digits ∧
    ((sixPlaces x).toList = digits ∨ (sixPlaces x).toList = '-' :: digits) := by
  obtain ⟨p, rational⟩ := isRational_of_isFinite finite
  obtain ⟨b, -, -, written⟩ := sixPlaces_eq rational
  refine ⟨_, (millionthsText_spec (b.magnitudeTimes (tenTo 6) .even)).1, ?_⟩
  rw [written]
  split
  · exact .inr (by simp)
  · exact .inl rfl

theorem sixPlaces_decimal {x : Float} (finite : isFinite x) :
    (sixPlaces x).toList ≠ [] ∧ ∀ c ∈ (sixPlaces x).toList, IsDecimal c := by
  obtain ⟨digits, numeral, text | text⟩ := sixPlaces_numeral finite
  · obtain ⟨c, rest, same, -⟩ := numeral.first
    exact ⟨by rw [text, same]; exact List.cons_ne_nil _ _,
      fun c member => mem_numeral numeral (text ▸ member)⟩
  · refine ⟨by rw [text]; exact List.cons_ne_nil _ _, fun c member => ?_⟩
    rw [text] at member
    rcases List.mem_cons.mp member with rfl | member
    · exact .inr (.inr rfl)
    · exact mem_numeral numeral member

end Decimal

theorem isWord_of_letterless {text : List Char} (nonempty : text ≠ [])
    (plain : ∀ c ∈ text, c.isAlpha = false ∧ c ≠ ' ') : IsWord text where
  sober := .of_letterless fun c member => (plain c member).1
  headed := by
    cases text with
    | nil => exact absurd rfl nonempty
    | cons c rest => exact ⟨c, rest, rfl, (plain c (List.mem_cons_self ..)).2⟩
  tight c d rest same := (plain d (same ▸ List.mem_cons_of_mem _ (List.mem_cons_self ..))).2

theorem isWord_sixPlaces {x : Float} (finite : isFinite x) : IsWord (Decimal.sixPlaces x).toList := by
  obtain ⟨nonempty, all⟩ := Decimal.sixPlaces_decimal finite
  exact isWord_of_letterless nonempty fun c member => (all c member).letterless

theorem Text.IsWord.append {first second : List Char} (l : IsWord first) (r : IsWord second)
    (last : first.getLast? ≠ some 'n') :
    IsWord (first ++ second) where
  sober := l.sober.append r.sober fun _ here _ _ same => absurd (same ▸ here) last
  headed := by
    obtain ⟨c, rest, rfl, nonblank⟩ := l.headed
    exact ⟨c, rest ++ second, rfl, nonblank⟩
  tight c d rest same := by
    obtain ⟨e, others, rfl, -⟩ := l.headed
    cases others with
    | nil =>
      obtain ⟨f, more, rfl, nonblank⟩ := r.headed
      exact (List.cons.inj (List.cons.inj same).2).1 ▸ nonblank
    | cons f others => exact (List.cons.inj (List.cons.inj same).2).1 ▸ l.tight e f others rfl

theorem isFinite_abs {x : Float} (finite : isFinite x) : isFinite x.abs := by
  obtain ⟨p, rational⟩ := Decimal.isRational_of_isFinite finite
  exact rational.abs.isFinite

namespace Polynomial

variable {p : Polynomial}

theorem IsFinite.coefficient (finite : p.IsFinite) (power : Nat) : isFinite (p.coefficient power) := by
  unfold Polynomial.coefficient
  rw [Array.getD_eq_getD_getElem?]
  cases entry : p.coefficients[power]? with
  | none => exact IsRational.zero.isFinite
  | some c => exact finite c (Array.mem_of_getElem? entry)

theorem letter_word {letter : Char} (low : 'a' ≤ letter) (high : letter ≤ 'z') :
    letter.isAlpha ∧ letter.isUpper = false ∧ letter ≠ ' ' := by
  have first : (97 : UInt32) ≤ letter.val := low
  have last : letter.val ≤ (122 : UInt32) := high
  refine ⟨by grind [Char.isAlpha, Char.isUpper, Char.isLower], by grind [Char.isUpper], ?_⟩
  rintro rfl
  exact absurd low (by decide)

theorem isWord_letter {letter : Char} (low : 'a' ≤ letter) (high : letter ≤ 'z') : IsWord [letter] := by
  obtain ⟨-, capital, blank⟩ := letter_word low high
  refine ⟨⟨by simpa using capital, by simp⟩, ⟨_, _, rfl, blank⟩, fun c d rest same => ?_⟩
  cases (List.cons.inj same).2

/-- A power of the letter. -/
theorem isWord_power (named : p.IsNamed) (power : Nat) :
    IsWord (p.letter.toString ++ (if power = 1 then "" else s!"^{power}")).toList := by
  have alone := isWord_letter named.low named.high
  split
  · simpa using alone
  · have text : (p.letter.toString ++ s!"^{power}").toList =
        [p.letter] ++ '^' :: (toString power).toList := by
      simp [toString]
    rw [text]
    refine alone.append_cons rfl (by decide) (.of_letterless fun c member => ?_)
    have digit : c.isDigit := by
      rw [Nat.toString_eq_repr, Nat.toList_repr] at member
      exact Nat.isDigit_of_mem_toDigits (by omega) (by omega) member
    exact (Decimal.IsDecimal.letterless (.inl digit)).1

theorem isWord_term (named : p.IsNamed) (power : Nat) {magnitude : Float} (finite : isFinite magnitude) :
    IsWord (termText p.letter power magnitude).toList := by
  unfold termText
  split
  · exact isWord_sixPlaces finite
  · have word := isWord_power named power
    simp only
    split
    · simpa using word
    · obtain ⟨nonempty, all⟩ := Decimal.sixPlaces_decimal finite
      rw [String.append_assoc, String.toList_append]
      refine (isWord_sixPlaces finite).append word fun last => ?_
      have := all 'n' (List.mem_of_getLast? last)
      exact absurd this (by unfold Decimal.IsDecimal; decide)

/-- The text goes on with a term and its sign. -/
theorem isWord_textBelow (named : p.IsNamed) (finite : p.IsFinite) (n : Nat) {text : String}
    (before : text = "" ∨ IsWord text.toList) :
    p.textBelow n text = "" ∨ IsWord (p.textBelow n text).toList := by
  induction n generalizing text with
  | zero => exact before
  | succ n ih =>
    rw [textBelow]
    simp only
    split
    · exact ih before
    · refine ih (.inr ?_)
      have term := isWord_term named n (isFinite_abs (finite.coefficient n))
      have signed (sign : Char) (letter : sign.isAlpha = false) (blank : sign ≠ ' ') :
          IsWord (text ++ sign.toString ++ termText p.letter n (p.coefficient n).abs).toList := by
        rcases before with rfl | word
        · simpa using IsWord.cons letter blank term.sober term.headed
        · simpa using word.append_cons letter blank term.sober
      split
      · exact signed '-' rfl (by decide)
      · split
        · next empty =>
          have none : text = "" := by simpa using empty
          simpa [none] using term
        · exact signed '+' rfl (by decide)

theorem text_word (named : p.IsNamed) (finite : p.IsFinite) : IsWord p.text.toList := by
  unfold Polynomial.text
  simp only
  split
  · refine @isWord_of_letterless ['0'] (by simp) fun c member => ?_
    obtain rfl := List.mem_singleton.mp member
    decide
  · next nonempty =>
    refine (isWord_textBelow named finite p.coefficients.size (.inl rfl)).resolve_left fun none => nonempty ?_
    simp [none]

/-- What is written already stays. -/
theorem prefix_textBelow (n : Nat) (text : String) : text.toList <+: (p.textBelow n text).toList := by
  induction n generalizing text with
  | zero => exact List.prefix_rfl
  | succ n ih =>
    rw [textBelow]
    simp only
    split
    · exact ih text
    · refine List.IsPrefix.trans ?_ (ih _)
      simp only [String.toList_append, List.append_assoc]
      exact List.prefix_append ..

/-- A polynomial that is no number shows its letter. -/
theorem letter_mem_text (named : p.IsNamed) (proper : p.degree ≠ 0) : p.letter ∈ p.text.toList := by
  have long : 1 < p.coefficients.size := by
    unfold Polynomial.degree at proper
    omega
  obtain ⟨n, size⟩ : ∃ n, p.coefficients.size = n + 1 := ⟨p.coefficients.size - 1, by omega⟩
  have top : (p.coefficient n == 0.0) = false := by
    have back := named.top long
    rw [Array.back?_eq_getElem?, size, Nat.add_sub_cancel, Array.getElem?_eq_getElem (by omega),
      Option.any_some] at back
    simpa [Polynomial.coefficient, size] using back
  have first : p.letter ∈ (p.textBelow (n + 1) "").toList := by
    rw [textBelow]
    simp only [top, Bool.false_eq_true, if_false]
    refine (prefix_textBelow n _).subset ?_
    have power : n ≠ 0 := by omega
    simp [termText, power]
  unfold Polynomial.text
  rw [size]
  simp only
  split
  · next none =>
    have none : p.textBelow (n + 1) "" = "" := by simpa using none
    simp [none] at first
  · exact first

end Polynomial

open Rendered

/-- A call with its coefficient and its power. -/
theorem isWord_callText {coef power : Float} {name argument : String}
    (known : name ∈ ["sin", "cos", "tan", "log", "diff"]) (finite : isFinite coef)
    (finite' : isFinite power) (sober : IsSober argument.toList) :
    IsWord (callText coef name argument power).toList := by
  have call := isWord_call known sober
  have powered : IsWord (name ++ "(" ++ argument ++ ")" ++
      (if power == 1.0 then "" else "^" ++ Decimal.sixPlaces power)).toList := by
    split
    · simpa using call
    · simpa using call.append_cons (c := '^') rfl (by decide) (isWord_sixPlaces finite').sober
  unfold callText
  simp only [String.append_assoc] at powered ⊢
  split
  · simpa using powered
  · split
    · simpa using IsWord.cons (c := '-') rfl (by decide) powered.sober powered.headed
    · simpa using (isWord_sixPlaces finite).append_cons (c := '*') rfl (by decide) powered.sober

/-- The name of a call is written. -/
theorem letter_mem_callText {coef power : Float} {name argument : String}
    (known : name ∈ ["sin", "cos", "tan", "log", "diff"]) :
    ∃ c ∈ (callText coef name argument power).toList, c.isAlpha := by
  have letter : ∃ c ∈ name.toList, c.isAlpha := by
    simp only [List.mem_cons, List.not_mem_nil, or_false] at known
    rcases known with rfl | rfl | rfl | rfl | rfl <;> exact ⟨_, List.mem_cons_self .., by decide⟩
  obtain ⟨c, member, letter⟩ := letter
  refine ⟨c, ?_, letter⟩
  simp [callText, member]

theorem TrigFunction.name_known (f : TrigFunction) : f.name ∈ ["sin", "cos", "tan", "log", "diff"] := by
  cases f <;> simp [TrigFunction.name]

theorem callPrecedence_closed (coef power : Float) : callPrecedence coef power ≠ .equation := by
  unfold callPrecedence
  repeat' split
  all_goals simp

theorem Argument.text_decent {argument : Argument} (finite : argument.IsFinite) (named : argument.IsNamed) :
    IsSober argument.text.toList := by
  cases argument with
  | numeric x => exact (isWord_sixPlaces finite).sober
  | symbolic outline =>
    obtain ⟨x, displays, worded⟩ := named
    rw [Argument.text, Expression.render_eq displays]
    exact worded.rendered.sober

namespace Quantity

theorem TrigTerm.around_part {t : TrigTerm} (coef : isFinite t.coef) (power : isFinite t.power)
    {argument : String} (sober : IsSober argument.toList) : (t.around argument).IsPart :=
  ⟨isWord_callText t.function.name_known coef power sober, callPrecedence_closed _ _⟩

theorem LogTerm.around_part {t : LogTerm} (coef : isFinite t.coef) (power : isFinite t.power)
    {argument : String} (sober : IsSober argument.toList) : (t.around argument).IsPart :=
  ⟨isWord_callText (by simp) coef power sober, callPrecedence_closed _ _⟩

theorem fractionRendered_part {plainNumber negative : Bool} {n d : Rendered} (top : n.IsPart)
    (bottom : d.IsPart) :
    (fractionRendered plainNumber n d negative).IsPart := by
  unfold fractionRendered
  split
  · exact top
  · refine ⟨?_, by simp only; split <;> simp⟩
    have numerator : IsWord (if plainNumber then n.text else n.within .product).toList := by
      split
      · exact top.word
      · exact top.decent.within (by simp)
    have denominator := bottom.decent.within (show Precedence.power ≠ .equation by simp)
    simpa using numerator.append_cons (c := '/') rfl (by decide) denominator.sober

/-- A quantity with finite numbers is written in a word that is no equation. -/
theorem rendered_part {q : Quantity} (finite : q.IsFinite) (named : q.IsNamed) : q.rendered.IsPart := by
  induction q with
  | constant x => exact ⟨isWord_sixPlaces finite, by simp only [rendered]; split <;> simp⟩
  | polynomial p =>
    refine ⟨Polynomial.text_word named finite, ?_⟩
    simp only [rendered, Polynomial.precedence]
    repeat' split
    all_goals simp
  | trig t => exact TrigTerm.around_part finite.2.1 finite.2.2 (Argument.text_decent finite.1 named)
  | log t => exact LogTerm.around_part finite.2.2.1 finite.2.2.2 (Argument.text_decent finite.2.1 named)
  | fraction n d ihn ihd =>
    have top := ihn finite.1 named.1
    have bottom := ihd finite.2 named.2
    cases n with
    | constant x => exact fractionRendered_part top bottom
    | polynomial p => exact fractionRendered_part top bottom
    | trig t => exact fractionRendered_part top bottom
    | log t => exact fractionRendered_part top bottom
    | fraction a b => exact fractionRendered_part top bottom

theorem isWorded {q : Quantity} (finite : q.IsFinite) (named : q.IsNamed) : Content.IsWorded q where
  rendered := rendered_part finite named
  around argument sober _ := by
    cases q with
    | trig t => exact TrigTerm.around_part finite.2.1 finite.2.2 sober
    | log t => exact LogTerm.around_part finite.2.2.1 finite.2.2.2 sober
    | _ => exact rendered_part finite named

/-- A side that is written without a letter is a number. -/
theorem IsSimple.constant_of_letterless {q : Quantity} (simple : q.IsSimple)
    (letterless : ∀ c ∈ q.text.toList, c.isAlpha = false) :
    ∃ x, q = constant x := by
  cases q with
  | constant x => exact ⟨x, rfl⟩
  | polynomial p =>
    have letter := letterless p.letter (Polynomial.letter_mem_text simple.named (simple.proper p rfl))
    rw [(Polynomial.letter_word simple.named.low simple.named.high).1] at letter
    cases letter
  | trig t =>
    obtain ⟨c, member, letter⟩ : ∃ c ∈ (trig t).text.toList, c.isAlpha :=
      letter_mem_callText t.function.name_known
    rw [letterless c member] at letter
    cases letter
  | log t =>
    obtain ⟨c, member, letter⟩ : ∃ c ∈ (log t).text.toList, c.isAlpha := letter_mem_callText (by simp)
    rw [letterless c member] at letter
    cases letter
  | fraction n d => cases simple.whole

/-- A fraction is written as its sides with a stroke between them. -/
theorem IsFraction.text {n d : Quantity} (isFraction : IsFraction n d) : ∃ first second,
    (fraction n d).text.toList = first ++ '/' :: second ∧ n.text.toList ⊆ first ∧ d.text.toList ⊆ second := by
  have within (r : Rendered) (p : Precedence) : r.text.toList ⊆ (r.within p).toList := by
    unfold Rendered.within
    split
    · simp
    · exact fun _ member => member
  have written (plainNumber negative : Bool) : ∃ first second,
      (fractionRendered plainNumber n.rendered d.rendered negative).text.toList = first ++ '/' :: second ∧
        n.text.toList ⊆ first ∧ d.text.toList ⊆ second := by
    unfold fractionRendered
    have other : ¬ (decide (d.rendered.text = "1") || decide (n.rendered.text = "0")) := by
      simp only [Bool.or_eq_true, decide_eq_true_eq, not_or]
      exact ⟨isFraction.proper, isFraction.nonzero⟩
    rw [if_neg other]
    refine ⟨(if plainNumber then n.text else n.rendered.within .product).toList,
      (d.rendered.within .power).toList, ?_, ?_, within _ _⟩
    · simp [Quantity.text]
    · split
      · exact fun _ member => member
      · exact within _ _
  cases n <;> exact written _ _

/-- A quantity that is written without a letter is a number, or a fraction of whole numbers. -/
theorem IsReduced.of_letterless {q : Quantity} (reduced : q.IsReduced)
    (letterless : ∀ c ∈ q.text.toList, c.isAlpha = false) :
    (∃ x, q = constant x) ∨ ∃ x y, q = fraction (constant x) (constant y) ∧ IsRatio x y := by
  cases q with
  | fraction n d =>
    obtain ⟨first, second, text, above, below⟩ := IsFraction.text reduced
    have here {c : Char} (member : c ∈ first ++ '/' :: second) : c.isAlpha = false :=
      letterless c (text ▸ member)
    obtain ⟨x, rfl⟩ := reduced.top.constant_of_letterless fun c member =>
      here (List.mem_append_left _ (above member))
    obtain ⟨y, rfl⟩ := reduced.bottom.constant_of_letterless fun c member =>
      here (List.mem_append_right _ (List.mem_cons_of_mem _ (below member)))
    obtain ⟨_, _, first, second, ratio⟩ := reduced.numbers rfl rfl
    exact .inr ⟨x, y, rfl, constant.inj first ▸ constant.inj second ▸ ratio⟩
  | _ => exact .inl (IsSimple.constant_of_letterless reduced letterless)

end Quantity

end Stepwise
