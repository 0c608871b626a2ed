import Stepwise.Proofs.Decimal.Stable
import Stepwise.Proofs.Reduction.Fit
import Stepwise.Proofs.Text.Cut

/-! The number that the last line shows. Main statement: the line of a fit tree in which nothing is
pending shows a finite number, if its letters make no exponent. -/
namespace Stepwise

open Text (IsSober IsWord)
open Decimal (isFinite IsRational)
open Quantity (constant fraction IsRatio)

/-! ### Texts that are read as numbers -/

namespace Text

theorem IsSober.part_of {text part : List Char} (sober : IsSober text) (inside : part <:+: text) :
    IsSober part where
  capital c member := sober.capital c (inside.subset member)
  chain := List.IsChain.infix sober.chain inside

/-- A text that is cut is put together from its parts. -/
theorem cutFrom_eq {mark before text b rest : List Char} (cut : cutFrom? mark before text = some (b, rest)) :
    before.reverse ++ text = b ++ mark ++ rest := by
  fun_induction cutFrom? mark before text with
  | case1 before empty =>
    obtain ⟨rfl, rfl⟩ := Prod.mk.inj (Option.some.inj cut)
    simp [List.isEmpty_iff.mp empty]
  | case2 before other => cases cut
  | case3 before c more found =>
    obtain ⟨rfl, rfl⟩ := Prod.mk.inj (Option.some.inj cut)
    obtain ⟨tail, same⟩ := List.isPrefixOf_iff_prefix.mp found
    rw [← same, List.append_assoc, List.drop_left]
  | case4 before c more other ih =>
    rw [← ih cut]
    simp

theorem cut_eq {mark text before behind : String} (cut : cut? mark text = some (before, behind)) :
    text.toList = before.toList ++ mark.toList ++ behind.toList := by
  obtain ⟨parts, found, same⟩ := Option.map_eq_some_iff.mp cut
  obtain ⟨rfl, rfl⟩ := Prod.mk.inj same
  simpa using cutFrom_eq found

def IsPlain (c : Char) : Prop := c.isAlpha = false ∧ c ≠ '='

theorem not_blank_of_alpha {c : Char} (letter : c.isAlpha) : isBlank c = false := by
  simp only [Char.isAlpha, Char.isUpper, Char.isLower, Bool.or_eq_true, Bool.and_eq_true,
    decide_eq_true_eq, ge_iff_le, UInt32.le_iff_toNat_le] at letter
  have small : 65 ≤ c.toNat ∧ c.toNat ≤ 122 := by
    rcases letter with ⟨low, high⟩ | ⟨low, high⟩
    · exact ⟨low, Nat.le_trans high (by decide)⟩
    · exact ⟨Nat.le_trans (by decide) low, high⟩
  simp only [isBlank, Bool.or_eq_false_iff, Bool.and_eq_false_iff, decide_eq_false_iff_not]
  omega

theorem plain_of_blank {c : Char} (blank : isBlank c) : IsPlain c := by
  refine ⟨Bool.eq_false_iff.mpr fun letter => ?_, ?_⟩
  · rw [not_blank_of_alpha letter] at blank
    cases blank
  · rintro rfl
    cases blank

/-- What is not stripped off a text is plain, and so is what is. -/
theorem plain_of_stripped {p : Char → Bool} (off : ∀ c, p c → IsPlain c) {text : List Char}
    (rest : ∀ c ∈ ((text.dropWhile p).reverse.dropWhile p).reverse, IsPlain c) : ∀ c ∈ text, IsPlain c := by
  have stripped {text : List Char} (rest : ∀ c ∈ text.dropWhile p, IsPlain c) : ∀ c ∈ text, IsPlain c := by
    intro c member
    rw [← List.takeWhile_append_dropWhile (p := p) (l := text)] at member
    exact (List.mem_append.mp member).elim (fun taken => off c (List.mem_takeWhile_imp taken)) (rest c)
  refine stripped fun c member => ?_
  exact @stripped (text.dropWhile p).reverse (fun c member => rest c (List.mem_reverse.mpr member)) c
    (List.mem_reverse.mpr member)

/-- What is left of a stripped text stands in it. -/
theorem stripped_infix (p : Char → Bool) (text : List Char) :
    ((text.dropWhile p).reverse.dropWhile p).reverse <:+: text := by
  have front : ((text.dropWhile p).reverse.dropWhile p).reverse <+: text.dropWhile p := by
    rw [← List.reverse_suffix, List.reverse_reverse]
    exact List.dropWhile_suffix p
  exact front.isInfix.trans (List.dropWhile_suffix p).isInfix

theorem trim_infix (text : String) : (trim text).toList <:+: text.toList := by
  simpa [trim, trimList] using stripped_infix isBlank text.toList

theorem plain_of_trim {text : String} (rest : ∀ c ∈ (trim text).toList, IsPlain c) :
    ∀ c ∈ text.toList, IsPlain c := by
  refine plain_of_stripped (p := isBlank) (fun c blank => plain_of_blank blank) ?_
  simpa [trim, trimList] using rest

end Text

namespace Decimal

open Text (IsPlain)

theorem IsDecimal.plain {c : Char} (decimal : IsDecimal c) : IsPlain c := by
  refine ⟨decimal.letterless.1, ?_⟩
  rintro rfl
  rcases decimal with digit | same | same
  · cases digit
  · cases same
  · cases same

/-- Without its mark, there is no exponent. -/
theorem nil_of_exponent {rest : List Char} {k m : Nat} {x : Float}
    (exponent : Option.map (fun e => scaled m (e - k))
      (match rest with
        | [] => some 0
        | mark :: exponent =>
          if mark = 'e' ∨ mark = 'E' then readExponent? exponent else none) = some x)
    (capital : 'E' ∉ rest) (small : 'e' ∉ rest) : rest = [] := by
  cases rest with
  | nil => rfl
  | cons mark rest =>
    simp only at exponent
    split at exponent
    · next letter =>
      rcases letter with rfl | rfl
      · exact absurd (List.mem_cons_self ..) small
      · exact absurd (List.mem_cons_self ..) capital
    · cases exponent

theorem plain_of_readDigits {text : List Char} {x : Float} (read : readDigits? text = some x)
    (capital : 'E' ∉ text) (small : 'e' ∉ text) : ∀ c ∈ text, IsPlain c := by
  have digits {text : List Char} : ∀ c ∈ text.takeWhile Char.isDigit, IsPlain c := fun c member =>
    IsDecimal.plain (.inl (List.mem_takeWhile_imp member))
  intro c member
  rw [← List.takeWhile_append_dropWhile (p := Char.isDigit) (l := text)] at member
  refine (List.mem_append.mp member).elim (digits c) fun member => ?_
  have suffix : text.dropWhile Char.isDigit ⊆ text := List.dropWhile_subset _
  unfold readDigits? at read
  cases left : text.dropWhile Char.isDigit with
  | nil =>
    rw [left] at member
    cases member
  | cons d more =>
    rw [left] at member suffix
    simp only [left] at read
    by_cases point : d = '.'
    · subst point
      simp only at read
      split at read
      · cases read
      · have inside : more.dropWhile Char.isDigit ⊆ text := fun c member =>
          suffix (List.mem_cons_of_mem _ (List.dropWhile_subset _ member))
        have none := nil_of_exponent read (fun member => capital (inside member)) fun member =>
          small (inside member)
        rcases List.mem_cons.mp member with rfl | member
        · exact IsDecimal.plain (.inr (.inl rfl))
        · rw [← List.takeWhile_append_dropWhile (p := Char.isDigit) (l := more), none,
            List.append_nil] at member
          exact digits c member
    · split at read
      · next same => exact absurd (List.cons.inj same).1 point
      · split at read
        · cases read
        · cases nil_of_exponent read (fun member => capital (suffix member)) fun member =>
            small (suffix member)

theorem toLower_of_sober {text : List Char} (sober : IsSober text) : text.map Char.toLower = text := by
  have same : ∀ c ∈ text, c.toLower = c := fun c member => by
    have capital := sober.capital c member
    unfold Char.toLower
    split
    · next upper =>
      have : c.isUpper := by simpa [Char.isUpper] using upper
      rw [capital] at this
      cases this
    · rfl
  simpa using List.map_congr_left same

/-- A sober text is no name of an infinity. -/
theorem plain_of_readMagnitude {text : List Char} {x : Float} (read : readMagnitude? text = some x)
    (sober : IsSober text) (small : 'e' ∉ text) : ∀ c ∈ text, IsPlain c := by
  unfold readMagnitude? at read
  rw [toLower_of_sober sober] at read
  have named {name : List Char} (same : String.ofList text = String.ofList name) : IsSober name :=
    String.ofList_injective same ▸ sober
  split at read
  · next same => exact absurd (@named ['i', 'n', 'f'] same).chain (by decide)
  · next same => exact absurd (@named ['i', 'n', 'f', 'i', 'n', 'i', 't', 'y'] same).chain (by decide)
  · next same => exact absurd (@named ['n', 'a', 'n'] same).chain (by decide)
  · exact plain_of_readDigits read (fun member => absurd (sober.capital 'E' member) (by decide)) small

/-- What is read as a number without an exponent has no letters. -/
theorem plain_of_read {text : String} {x : Float} (read : read? text = some x) (sober : IsSober text.toList)
    (small : 'e' ∉ text.toList) : ∀ c ∈ text.toList, IsPlain c := by
  have signed {sign : Char} {magnitude : List Char} (plain : IsPlain sign)
      (same : text.toList = sign :: magnitude) (read : (readMagnitude? magnitude).isSome) :
      ∀ c ∈ text.toList, IsPlain c := by
    obtain ⟨v, read⟩ := Option.isSome_iff_exists.mp read
    rw [same] at sober small ⊢
    have rest := plain_of_readMagnitude read (sober.part_of (List.suffix_cons ..).isInfix)
      fun member => small (List.mem_cons_of_mem _ member)
    exact List.forall_mem_cons.mpr ⟨plain, rest⟩
  unfold read? at read
  split at read
  · next magnitude same =>
    obtain ⟨v, read, -⟩ := Option.map_eq_some_iff.mp read
    exact signed ⟨rfl, by decide⟩ same (by simp [read])
  · next magnitude same => exact signed ⟨rfl, by decide⟩ same (by simp [read])
  · exact plain_of_readMagnitude read sober small

end Decimal

namespace Formula

open Text (IsPlain)

/-- What is read as a number in a side. -/
theorem plain_of_part {side part text : String} {x : Float} (sober : IsSober side.toList)
    (small : 'e' ∉ side.toList) (inside : part.toList <:+: side.toList)
    (within : text.toList <:+: part.toList) (read : Decimal.read? text = some x) :
    ∀ c ∈ text.toList, IsPlain c :=
  Decimal.plain_of_read read (sober.part_of (within.trans inside)) fun member =>
    small (inside.subset (within.subset member))

/-- A side that shows a value has no letters and no equality sign. -/
theorem plain_of_value {line side : String} {x : Float} (value : valueOfLine line = .ok x)
    (solved : solvedSide? line = some side) (sober : IsSober side.toList)
    (small : 'e' ∉ side.toList) : ∀ c ∈ side.toList, IsPlain c := by
  have bracket (c : Char) (here : (c = '(' || c = ')') = true) : IsPlain c := by
    simp only [Bool.or_eq_true, decide_eq_true_eq] at here
    rcases here with rfl | rfl <;> exact ⟨rfl, by decide⟩
  unfold valueOfLine at value
  simp only [solved] at value
  cases cut : Text.cut? "/" side with
  | none =>
    simp only [cut] at value
    split at value
    · next read =>
        exact Text.plain_of_trim
          (plain_of_part sober small List.infix_rfl (Text.trim_infix side) read)
    · cases value
  | some parts =>
    obtain ⟨numerator, denominator⟩ := parts
    have same := Text.cut_eq cut
    have first : numerator.toList <:+: side.toList :=
      ⟨[], "/".toList ++ denominator.toList, by rw [same]; simp⟩
    have second : denominator.toList <:+: side.toList :=
      ⟨numerator.toList ++ "/".toList, [], by rw [same]; simp⟩
    have bare := Text.stripped_infix (fun c => c = '(' || c = ')') (Text.trim denominator).toList
    simp only [cut, bind, Except.bind] at value
    split at value
    · cases value
    · next n readn =>
      split at value
      · cases value
      · next d readd =>
        have top : ∀ c ∈ numerator.toList, IsPlain c := by
          split at readn
          · next read => exact Text.plain_of_trim (plain_of_part sober small first (Text.trim_infix _) read)
          · cases readn
        have bottom : ∀ c ∈ denominator.toList, IsPlain c := by
          split at readd
          · next read =>
            have within : (withoutBrackets (Text.trim denominator)).toList <:+: denominator.toList := by
              simpa [withoutBrackets] using bare.trans (Text.trim_infix _)
            have part := plain_of_part sober small second within read
            exact Text.plain_of_trim (Text.plain_of_stripped bracket (by simpa [withoutBrackets] using part))
          · cases readd
        rw [same]
        intro c member
        rcases List.mem_append.mp member with member | member
        · rcases List.mem_append.mp member with member | member
          · exact top c member
          · obtain rfl : c = '/' := by simpa using member
            exact ⟨rfl, by decide⟩
        · exact bottom c member

/-- What is written for a double is neither trimmed nor cut, and no bracket stands around it. -/
theorem clear_sixPlaces (x : Float) :
    (∀ c ∈ (Decimal.sixPlaces x).toList, Text.isBlank c = false) ∧ '/' ∉ (Decimal.sixPlaces x).toList ∧
      ∀ c ∈ (Decimal.sixPlaces x).toList, (decide (c = '(') || decide (c = ')')) = false := by
  have figures := Decimal.figure_of_written x
  refine ⟨fun c member => Decimal.not_blank_of_figure (figures c member),
    fun member => absurd (figures _ member) (by decide),
    fun c member => Bool.or_eq_false_iff.mpr ⟨decide_eq_false ?_, decide_eq_false ?_⟩⟩ <;>
  · rintro rfl
    exact absurd (figures _ member) (by decide)

/-- A number is read back as a number, and a finite one as a finite one. -/
theorem value_of_constant {line : String} {x : Float}
    (solved : solvedSide? line = some (Decimal.sixPlaces x)) :
    ∃ v, valueOfLine line = .ok v ∧ (isFinite x → isFinite v) := by
  have read : ∃ v, Decimal.read? (Decimal.sixPlaces x) = some v ∧ (isFinite x → isFinite v) := by
    by_cases finite : isFinite x
    · obtain ⟨w, read, finite'⟩ := (Decimal.read_sixPlaces finite).1
      exact ⟨w, read, fun _ => finite'⟩
    · have named {text : String} (read : (Decimal.read? text).isSome) :
          ∃ v, Decimal.read? text = some v ∧ (isFinite x → isFinite v) := by
        obtain ⟨v, read⟩ := Option.isSome_iff_exists.mp read
        exact ⟨v, read, fun whole => absurd whole finite⟩
      rcases Decimal.sixPlaces_of_infinite finite with text | text | text <;> rw [text] <;>
        exact named (by decide +kernel)
  obtain ⟨w, read, finite⟩ := read
  obtain ⟨blank, slash, -⟩ := clear_sixPlaces x
  have whole : Text.cut? "/" (Decimal.sixPlaces x) = none :=
    Text.cut_none (show "/".toList = ['/'] by decide) slash
  refine ⟨w, ?_, finite⟩
  unfold valueOfLine
  simp only [solved, whole, Text.trim_absent blank, read]

/-- A fraction of whole numbers is read back as a finite number. -/
theorem value_of_ratio {line : String} {x y : Float} (ratio : IsRatio x y)
    (solved : solvedSide? line = some (Decimal.sixPlaces x ++ "/" ++ Decimal.sixPlaces y)) :
    ∃ v, valueOfLine line = .ok v ∧ isFinite v := by
  obtain ⟨⟨p, top, small⟩, ⟨q, bottom, low, high⟩, -⟩ := ratio
  obtain ⟨blank, slash, -⟩ := clear_sixPlaces x
  obtain ⟨blank', -, bracket⟩ := clear_sixPlaces y
  have halves : Text.cut? "/" (Decimal.sixPlaces x ++ "/" ++ Decimal.sixPlaces y) =
      some (Decimal.sixPlaces x, Decimal.sixPlaces y) :=
    Text.cut_mark (show "/".toList = ['/'] by decide) slash
  have bare : withoutBrackets (Decimal.sixPlaces y) = Decimal.sixPlaces y := by
    rw [withoutBrackets, Text.stripped_absent bracket, String.ofList_toList]
  have room : (2 : ℚ) ^ 128 ≤ 2 ^ (1022 : Int) := by
    rw [← zpow_natCast]
    exact zpow_le_zpow_right₀ (by norm_num) (by norm_num)
  obtain ⟨n, r, readn, numerator, nearn⟩ := Decimal.read_near top (small.trans room)
  have magnitude : |q| = q := abs_of_nonneg (by linarith only [low])
  obtain ⟨d, s, readd, denominator, neard⟩ := Decimal.read_near bottom (magnitude.trans_le (high.trans room))
  -- the denominator is read as 1/8 or more, so the quotient stays far below the largest double
  have above : 1 / 8 ≤ s := by
    rw [magnitude, abs_le] at neard
    linarith only [low, neard.1]
  have positive : 0 < s := by linarith only [above]
  have quotient : |r / s| ≤ 2 ^ (1023 : Int) := by
    have bound : |r| ≤ 2 ^ 130 := by
      have := abs_sub_abs_le_abs_sub r p
      linarith only [this, nearn, small]
    have power : (2 : ℚ) ^ 133 ≤ 2 ^ (1023 : Int) := by
      rw [← zpow_natCast]
      exact zpow_le_zpow_right₀ (by norm_num) (by norm_num)
    rw [abs_div, abs_of_pos positive, div_le_iff₀ positive]
    calc |r| ≤ 2 ^ 133 * (1 / 8) := by linarith only [bound]
      _ ≤ 2 ^ (1023 : Int) * s := mul_le_mul power above (by norm_num) (zpow_nonneg (by norm_num) _)
  obtain ⟨z, result, -⟩ := numerator.div_near denominator positive.ne' quotient
  have other : (d == 0.0) = false := Bool.eq_false_iff.mpr fun zero =>
    positive.ne' ((denominator.beq_iff IsRational.zero).mp zero)
  refine ⟨_, ?_, result.isFinite⟩
  unfold valueOfLine
  simp only [solved, halves, Text.trim_absent blank, Text.trim_absent blank', bare, readn, readd,
    bind, Except.bind, other]
  rfl

/-- A written number is read back, and what is read of a finite one is finite. -/
theorem value_of_number {line : String} {q : Quantity}
    (number : (∃ x, q = constant x) ∨ ∃ x y, q = fraction (constant x) (constant y) ∧ IsRatio x y)
    (solved : solvedSide? line = some q.text) :
    ∃ v, valueOfLine line = .ok v ∧ (q.IsFinite → isFinite v) := by
  rcases number with ⟨x, rfl⟩ | ⟨x, y, rfl, ratio⟩
  · exact value_of_constant solved
  · obtain ⟨q, bottom, low, -⟩ := ratio.bottom
    have positive : ¬ y < 0.0 := fun negative => by
      have := (bottom.lt IsRational.zero).mp negative
      linarith only [this, low]
    have text : (fraction (constant x) (constant y)).text = Decimal.sixPlaces x ∨
        (fraction (constant x) (constant y)).text = Decimal.sixPlaces x ++ "/" ++ Decimal.sixPlaces y := by
      simp only [Quantity.text, Quantity.rendered, Quantity.fractionRendered, if_neg positive]
      split
      · exact .inl rfl
      · exact .inr (by simp [Rendered.within, Precedence.rank])
    rcases text with text | text
    · obtain ⟨v, value, finite⟩ := value_of_constant (text ▸ solved)
      exact ⟨v, value, fun both => finite both.1⟩
    · obtain ⟨v, value, finite⟩ := value_of_ratio ratio (text ▸ solved)
      exact ⟨v, value, fun _ => finite⟩

end Formula

/-! ### Trees that are written as numbers -/

namespace Tree

variable {x : Tree Mark} {a : Mark}

theorem within_subset (r : Rendered) (required : Precedence) :
    r.text.toList ⊆ (r.within required).toList := by
  unfold Rendered.within
  split
  · simp
  · exact fun _ member => member

/-- A call is written with its name. -/
theorem letter_call {keyword : Token} (mark : keyword.kind.IsMark) (spelled : keyword.Spelled)
    (term : a.termKeyword?.isSome → ∀ q ∈ a.value, Formula.isTerm q) (call : a.call = some keyword)
    (isLeaf : Bool) (argument : String) :
    ∃ c ∈ (callRendered a keyword isLeaf argument).text.toList, c.isAlpha := by
  have letter : ∃ c ∈ keyword.text.toList, c.isAlpha := by
    have known := mark.name spelled
    simp only [List.mem_cons, List.not_mem_nil, or_false] at known
    rcases known with text | text | text | text | text <;> rw [text] <;>
      exact ⟨_, List.mem_cons_self .., by decide⟩
  obtain ⟨c, member, letter⟩ := letter
  have plain : ∃ c ∈ (keyword.text ++ "(" ++ argument ++ ")").toList, c.isAlpha :=
    ⟨c, by simp [member], letter⟩
  have named (isTerm : keyword.kind = .trig ∨ keyword.kind = .log) {q : Quantity}
      (value : a.value = some q) (text : String) :
      (∃ c ∈ q.rendered.text.toList, c.isAlpha) ∧ ∃ c ∈ (q.around text).text.toList, c.isAlpha := by
    have here := term (by simp [Label.termKeyword?, call, isTerm]) q value
    cases q with
    | trig t => exact ⟨letter_mem_callText t.function.name_known, letter_mem_callText t.function.name_known⟩
    | log t => exact ⟨letter_mem_callText (by simp), letter_mem_callText (by simp)⟩
    | _ => cases here
  unfold callRendered
  cases value : a.value with
  | none =>
    simp only
    split <;> first | exact plain | simp_all
  | some q =>
    rcases mark with kind | kind | kind <;> simp only [kind]
    · split
      · exact (named (.inl kind) value argument).1
      · exact (named (.inl kind) value argument).2
    · split
      · exact (named (.inr kind) value argument).1
      · exact (named (.inr kind) value argument).2
    · split
      · exact ⟨'d', by simp, by decide⟩
      · exact plain

def IsNumber (q : Quantity) : Prop :=
  (∃ x, q = constant x) ∨ ∃ x y, q = fraction (constant x) (constant y) ∧ IsRatio x y

theorem IsNumber.value {q : Quantity} (number : IsNumber q) : q.value?.isSome := by
  rcases number with ⟨x, rfl⟩ | ⟨x, y, rfl, -⟩ <;> rfl

/-- A leaf without a call that shows no letter holds a number. -/
theorem number_of_leaf (fit : (leaf a).Fit Label.IsShown) (sound : (leaf a).Sound) (call : a.call = none)
    (letterless : ∀ c ∈ a.token.text.toList, c.isAlpha = false) :
    ∃ q, a.value = some q ∧ IsNumber q ∧ a.token.text = q.text := by
  obtain ⟨q, value⟩ := Option.isSome_iff_exists.mp sound.1
  have token := fit.2.token call q value
  rw [token] at letterless ⊢
  exact ⟨q, value, (fit.1.value q value).2.of_letterless letterless, rfl⟩

theorem IsHidden.number (hidden : x.IsHidden) (fit : x.Fit Label.IsShown) (sound : x.Sound) :
    ∃ q, x.top.value = some q ∧ IsNumber q := by
  obtain ⟨a, rfl, call, -, letterless⟩ := hidden
  obtain ⟨q, value, number, -⟩ := number_of_leaf fit sound call letterless
  exact ⟨q, value, number⟩

theorem number_of_unit (unit : isUnit a x) (fit : x.Fit Label.IsShown) (sound : x.Sound) :
    a.token.kind = .times ∧ ∃ q, x.top.value = some q ∧ IsNumber q := by
  simp only [isUnit, Bool.and_eq_true, beq_iff_eq, Option.isNone_iff_eq_none] at unit
  obtain ⟨⟨times, -⟩, ⟨isLeaf, call⟩, one⟩ := unit
  cases x with
  | leaf b =>
    have letterless : ∀ c ∈ b.token.text.toList, c.isAlpha = false := by
      have same : b.token.text.toList = ['1'] := congrArg String.toList one
      rw [same]
      simp
    obtain ⟨q, value, number, -⟩ := number_of_leaf fit sound call letterless
    exact ⟨times, q, value, number⟩
  | group b inner => cases isLeaf
  | fork b left right => cases isLeaf

/-- An operator over two numbers is not settled. -/
theorem unsettled_of_numbers {left right : Tree Mark}
    {p q : Quantity} (operator : IsOperator a left right) (unreduced : a.reduced = false)
    (other : a.token.kind ≠ .equals) (first : left.top.value = some p) (numberl : IsNumber p)
    (second : right.top.value = some q) (numberr : IsNumber q) : a.isSettled = false := by
  have forward : a.deferred = false := by
    refine Bool.eq_false_iff.mpr fun put => ?_
    have none := operator.deferred put
    have rank := operator.rank
    rw [first, second] at none
    obtain ⟨operation, kind⟩ : ∃ operation, Operation.ofKind? a.token.kind = some operation := by
      cases kind : a.token.kind <;>
        first | exact absurd kind other | exact ⟨_, rfl⟩ | (rw [kind] at rank; cases rank)
    simp only [combination, kind] at none
    have settles := Quantity.apply_settles operation numberl.value numberr.value
    rw [none] at settles
    obtain ⟨r, same, -⟩ := settles
    cases same
  simp [Label.isSettled, unreduced, forward]

/-- No call is written without a letter. -/
theorem not_plain_call {keyword : Token} (label : a.IsFit)
    (term : a.termKeyword?.isSome → ∀ q ∈ a.value, Formula.isTerm q) (call : a.call = some keyword)
    {isLeaf : Bool} {argument : String} :
    ¬ ∀ c ∈ (callRendered a keyword isLeaf argument).text.toList, Text.IsPlain c := fun plain => by
  obtain ⟨mark, spelled⟩ := label.call keyword call
  obtain ⟨c, member, letter⟩ := letter_call mark spelled term call isLeaf argument
  rw [(plain c member).1] at letter
  cases letter

theorem operatorRendered_infixed {left : Tree Mark} (rank : a.token.kind.rank?.isSome)
    (other : a.token.kind ≠ .equals) (unary : ¬ a.unary) (unit : ¬ isUnit a left) (l r : Rendered) :
    operatorRendered a left l r = Expression.infixed l a.token r := by
  rw [operatorRendered, if_neg unary, if_neg unit]
  split
  · contradiction
  · next opening =>
    rw [opening] at rank
    cases rank
  · rfl

/-- Without a letter and an equality sign, an operator is written over two numbers. -/
theorem numbers_of_plain {left right : Tree Mark} (fit : (fork a left right).Fit Label.IsShown)
    (sound : (fork a left right).Sound)
    (plain : ∀ c ∈ (operatorRendered a left left.rendered right.rendered).text.toList,
      Text.IsPlain c)
    (ihl : (∀ c ∈ left.text.toList, Text.IsPlain c) → ∃ p, left.top.value = some p ∧ IsNumber p)
    (ihr : (∀ c ∈ right.text.toList, Text.IsPlain c) → ∃ q, right.top.value = some q ∧ IsNumber q) :
    a.token.kind ≠ .equals ∧ (∃ p, left.top.value = some p ∧ IsNumber p) ∧
      ∃ q, right.top.value = some q ∧ IsNumber q := by
  obtain ⟨-, operator, l, r⟩ := fit
  by_cases unary : a.unary
  · obtain ⟨other, hidden⟩ := operator.unary unary
    rw [operatorRendered, if_pos unary, String.toList_append] at plain
    exact ⟨other, hidden.number l sound.2.2.1,
      ihr fun c member => plain c (List.mem_append_right _ (within_subset _ _ member))⟩
  · by_cases unit : isUnit a left
    · obtain ⟨times, number⟩ := number_of_unit unit l sound.2.2.1
      rw [operatorRendered, if_neg unary, if_pos unit] at plain
      exact ⟨by simp [times], number, ihr plain⟩
    · by_cases equals : a.token.kind = .equals
      · rw [operatorRendered, if_neg unary, if_neg unit, equals] at plain
        exact absurd rfl (plain '=' (by simp)).2
      · obtain ⟨own, tightl, tightr, -, -, -, written⟩ := infixed_eq operator.rank equals
        rw [operatorRendered_infixed operator.rank equals unary unit, written _ _ _ rfl, String.toList_append,
          String.toList_append] at plain
        exact ⟨equals,
          ihl fun c member =>
          plain c (List.mem_append_left _ (List.mem_append_left _ (within_subset _ _ member))),
          ihr fun c member => plain c (List.mem_append_right _ (within_subset _ _ member))⟩

/-- A tree that is written without a letter and without an equality sign is one number. -/
theorem number_of_plain (fit : x.Fit Label.IsShown) (sound : x.Sound) (idle : x.Idle)
    (plain : ∀ c ∈ x.text.toList, Text.IsPlain c) :
    ∃ q, x.top.value = some q ∧ IsNumber q ∧ x.text = q.text := by
  induction x with
  | leaf a =>
    cases call : a.call with
    | some keyword =>
      have term : a.termKeyword?.isSome → ∀ q ∈ a.value, Formula.isTerm q := fun keyword q member => by
        obtain ⟨name, here⟩ := Option.isSome_iff_exists.mp keyword
        obtain ⟨b, r, before, same⟩ := sound.2 name here
        rw [same] at member
        exact Option.some.inj member ▸ isTerm_callTerm _ name before
      simp only [text, rendered, leafRendered, call] at plain
      exact absurd plain (not_plain_call fit.1 term call)
    | none =>
      obtain ⟨q, value⟩ := Option.isSome_iff_exists.mp sound.1
      have written : (leaf a).text = q.text := by
        simp only [text, rendered, leafRendered, call, value]
        rfl
      rw [written] at plain ⊢
      exact ⟨q, value, (fit.1.value q value).2.of_letterless fun c member => (plain c member).1, rfl⟩
  | group a inner ih =>
    obtain ⟨keyword, call⟩ := Option.isSome_iff_exists.mp fit.2.1.2.2
    simp only [text, rendered, innerRendered, call] at plain
    exact absurd plain (not_plain_call fit.1.toIsFit (fun _ => fit.1.term) call)
  | fork a left right ihl ihr =>
    cases call : a.call with
    | some keyword =>
      simp only [text, rendered, innerRendered, call] at plain
      exact absurd plain (not_plain_call fit.1.toIsFit (fun _ => fit.1.term) call)
    | none =>
      -- two operands that are numbers would have been combined
      simp only [text, rendered, innerRendered, call] at plain
      obtain ⟨idlel, idler, still⟩ := idle_fork.mp idle
      obtain ⟨other, ⟨p, first, numberl⟩, q, second, numberr⟩ := numbers_of_plain fit sound plain
        (fun plain => (ihl fit.2.2.1 sound.2.2.1 idlel plain).imp fun _ h => ⟨h.1, h.2.1⟩)
        (fun plain => (ihr fit.2.2.2 sound.2.2.2 idler plain).imp fun _ h => ⟨h.1, h.2.1⟩)
      have unreduced : a.reduced = false := Bool.eq_false_iff.mpr fun reduced => other (sound.1 reduced)
      have unsettled := unsettled_of_numbers fit.2.1 unreduced other first numberl second numberr
      simp [isPending, isLeaf, unsettled] at still

/-- What stands behind the equality sign of a solved equation is a tree of its own. -/
theorem solved_side (fit : x.Fit Label.IsShown) (sound : x.Sound) (idle : x.Idle) {c : Char}
    {side : List Char} (written : x.text.toList = c :: ' ' :: '=' :: ' ' :: side) (letter : '=' ≠ c)
    (single : '=' ∉ side) :
    ∃ r : Tree Mark, r.Fit Label.IsShown ∧ r.Sound ∧ r.Idle ∧ r.text.toList = side := by
  have worded {y : Tree Mark} (fit : y.Fit Label.IsShown) : y.IsWorded := fit.worded fun _ shown => shown.word
  have loose {r : Rendered} (decent : r.IsDecent) (text : r.text.toList = c :: ' ' :: '=' :: ' ' :: side) :
      r.precedence = .equation := by
    by_contra closed
    exact (decent.word closed).tight c ' ' _ text rfl
  have closed {b : Mark} {keyword : Token} (label : b.IsFit) (call : b.call = some keyword)
      {w : Rendered} (decent : w.IsDecent) : (innerRendered b w).IsPart := by
    obtain ⟨mark, spelled⟩ := label.call keyword call
    simp only [innerRendered, call]
    exact isPart_call label.worded mark spelled false decent.sober decent.headed
  induction x with
  | leaf a => exact absurd (loose (isPart_leaf (worded fit)).decent written) (isPart_leaf (worded fit)).closed
  | group a inner ih =>
    obtain ⟨label, ⟨opening, unary, called⟩, inside⟩ := fit
    obtain ⟨keyword, call⟩ := Option.isSome_iff_exists.mp called
    have same : operatorRendered a inner inner.rendered Expression.unwritten = inner.rendered := by
      simp [operatorRendered, unary, isUnit, opening]
    have part := closed label.toIsFit call (same.symm ▸ (worded inside).rendered)
    exact absurd (loose part.decent written) part.closed
  | fork a left right ihl ihr =>
    obtain ⟨label, operator, l, r⟩ := fit
    have decentl := (worded l).rendered
    have decentr := (worded r).rendered
    have decent : (operatorRendered a left left.rendered right.rendered).IsDecent :=
      isDecent_operator operator.rank operator.spelled decentl decentr
    cases call : a.call with
    | some keyword =>
      have part := closed label.toIsFit call decent
      exact absurd (loose part.decent written) part.closed
    | none =>
      have here : (fork a left right).rendered = operatorRendered a left left.rendered right.rendered := by
        simp only [rendered, innerRendered, call]
      rw [text, here] at written
      have equation := loose decent written
      by_cases unary : a.unary
      · rw [operatorRendered, if_pos unary] at equation
        cases equation
      · by_cases unit : isUnit a left
        · rw [operatorRendered, if_neg unary, if_pos unit] at written
          exact ihr r sound.2.2.2 (idle_fork.mp idle).2.1 written
        · by_cases equals : a.token.kind = .equals
          · rw [operatorRendered, if_neg unary, if_neg unit, equals] at written
            -- the equality sign is the only one in the text
            have parts : [c, ' '] ++ '=' :: (' ' :: side) =
                (left.rendered.text.toList ++ [' ']) ++ '=' :: (' ' :: right.rendered.text.toList) := by
              simpa using written.symm
            obtain ⟨-, -, behind⟩ :=
              (List.append_cons_inj_of_notMem
                (by simpa using letter) (by simpa using single)).mp parts
            exact ⟨right, r, sound.2.2.2, (idle_fork.mp idle).2.1, (List.cons.inj behind).2.symm⟩
          · obtain ⟨own, _, _, rank, -, -, infixed⟩ := infixed_eq operator.rank equals
            rw [operatorRendered_infixed operator.rank equals unary unit, infixed _ _ _ rfl] at equation
            have loosest : own = .equation := equation
            have low : a.token.kind.rank? = some 0 := by
              obtain ⟨k, same⟩ := Option.isSome_iff_exists.mp operator.rank
              rw [loosest, same] at rank
              rw [same, ← show (0 : Nat) = k from rank]
            exact absurd low (by cases kind : a.token.kind <;> simp_all [Token.Kind.rank?])

end Tree

namespace Formula

/-- The number that the line of a fit tree shows is finite, if no letter makes an exponent of it. -/
theorem value_of_tree {x : Tree Mark} {v : Float} (fit : x.Fit Label.IsShown) (sound : x.Sound)
    (idle : x.Idle) (small : ∀ side, solvedSide? x.text = some side → 'e' ∉ side.toList)
    (value : valueOfLine x.text = .ok v) :
    isFinite v := by
  have sober : IsSober x.text.toList := (fit.worded fun _ shown => shown.word).rendered.sober
  have number {r : Tree Mark} (fit : r.Fit Label.IsShown) (sound : r.Sound) (idle : r.Idle)
      (solved : solvedSide? x.text = some r.text) (plain : ∀ c ∈ r.text.toList, Text.IsPlain c) :
      isFinite v := by
    obtain ⟨q, here, number, text⟩ := Tree.number_of_plain fit sound idle plain
    obtain ⟨w, read, finite⟩ := value_of_number number (text ▸ solved)
    exact Except.ok.inj (read.symm.trans value) ▸ finite (fit.top.value q here).1
  cases cut : Text.cut? " = " x.text with
  | none =>
    have solved : solvedSide? x.text = some x.text := by rw [solvedSide?, cut]
    exact number fit sound idle solved (plain_of_value value solved sober (small _ solved))
  | some parts =>
    obtain ⟨left, side⟩ := parts
    obtain ⟨c, letter, low, high⟩ : ∃ c, left.toList = [c] ∧ 'a' ≤ c ∧ c ≤ 'z' := by
      unfold valueOfLine solvedSide? at value
      rw [cut] at value
      simp only at value
      split at value
      · cases value
      · next text same =>
        split at same
        · next c alone =>
          split at same
          · next letter => exact ⟨c, alone, letter⟩
          · cases same
        · cases same
    have solved : solvedSide? x.text = some side := by
      rw [solvedSide?, cut]
      simp only [letter, low, high, and_self, if_true]
    have same := Text.cut_eq cut
    have written : x.text.toList = c :: ' ' :: '=' :: ' ' :: side.toList := by rw [same, letter]; rfl
    have inside : side.toList <:+: x.text.toList := ⟨left.toList ++ " = ".toList, [], by rw [same]; simp⟩
    have plain := plain_of_value value solved (sober.part_of inside) (small _ solved)
    have other : '=' ≠ c := by
      rintro rfl
      exact absurd low (by decide)
    obtain ⟨r, fit, sound, idle, text⟩ :=
      Tree.solved_side fit sound idle written other fun member => (plain '=' member).2 rfl
    have text : r.text = side := String.toList_inj.mp text
    exact number fit sound idle (text ▸ solved) (text ▸ plain)

end Formula

end Stepwise
