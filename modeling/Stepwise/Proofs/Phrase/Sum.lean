import Stepwise.Proofs.Phrase.Build
import Stepwise.Proofs.Quantity.Display

/-! Sums of terms as polynomials are written. Main statement: the text of a sum denotes the tree of
its terms, grouped from the left; a term with a letter is read as a product that is spelled out. -/
namespace Stepwise

open Token (inserted Apart IsNumeral spelledOut scanFrom)

theorem Token.isNumeral_nat (n : Nat) : IsNumeral (toString n).toList := by
  rw [Nat.toString_eq_repr, Nat.toList_repr]
  exact .whole Nat.toDigits_ne_nil fun c member => Nat.isDigit_of_mem_toDigits (by omega) (by omega) member

namespace Term

variable {ν : Type} {v : Char} {t : Term} {ts : List Term} {tokens rest : List Token}

def sign (t : Term) : Token.Kind := if t.coefficient < 0 then .minus else .plus

inductive Denotes (v : Char) : Tree (Label ν) → Term → Prop
  | number {t : Term} {place : Option Nat} (flat : t.power = 0) :
      Denotes v (.leaf { token := ⟨.number, toString t.coefficient.natAbs, place⟩ }) t
  | power {t : Term} {coefficient letter caret exponent : Token} (high : t.power ≠ 0)
      (number : coefficient.kind = .number) (digits : coefficient.text = toString t.coefficient.natAbs)
      (isLetter : letter.kind = .letter) (named : letter.text.toList = [v]) (isCaret : caret.kind = .power)
      (isNumber : exponent.kind = .number) (digits' : exponent.text = toString t.power) :
      Denotes v (.ofLetter coefficient letter caret (.leaf { token := exponent })) t

/-- The tree adds up the terms from the left. A minus sign in front of the first has no left operand. -/
inductive SumOf (v : Char) : Tree (Label ν) → List Term → Prop
  | positive {x : Tree (Label ν)} {t : Term} (positive : ¬ t.coefficient < 0)
      (denotes : Denotes v x t) : SumOf v x [t]
  | negative {x : Tree (Label ν)} {t : Term} (place : Nat) (negative : t.coefficient < 0)
      (denotes : Denotes v x t) :
      SumOf v (.fork { token := .symbol .minus place, unary := true }
      (.leaf { token := inserted .number "0" }) x) [t]
  | more {x y : Tree (Label ν)} {ts : List Term} {t : Term} (place : Nat) (sum : SumOf v x ts)
      (denotes : Denotes v y t) :
      SumOf v (.fork { token := .symbol t.sign place } x y) (ts ++ [t])

inductive Factor (n : Nat) : List Token → Prop
  | unit (one : n = 1) : Factor n []
  | written (place : Nat) : Factor n [⟨.number, toString n, some place⟩]

inductive Exponent (n : Nat) : List Token → Prop
  | unit (one : n = 1) : Exponent n []
  | written (place place' : Nat) : Exponent n [.symbol .power place, ⟨.number, toString n, some place'⟩]

inductive Spelling (v : Char) (t : Term) : List Token → Prop
  | number (flat : t.power = 0) (place : Nat) :
      Spelling v t [⟨.number, toString t.coefficient.natAbs, some place⟩]
  | power {before behind : List Token} (high : t.power ≠ 0) (factor : Factor t.coefficient.natAbs before)
      (exponent : Exponent t.power behind) (place : Nat) :
      Spelling v t (before ++ ⟨.letter, v.toString, some place⟩ :: behind)

inductive Tail (v : Char) : List Term → List Token → Prop
  | nil : Tail v [] []
  | cons {t : Term} {ts : List Term} {tokens rest : List Token} (place : Nat) (spelling : t.Spelling v tokens)
      (tail : Tail v ts rest) : Tail v (t :: ts) (.symbol t.sign place :: tokens ++ rest)

theorem sign_cases (t : Term) : t.sign = .plus ∨ t.sign = .minus := by
  unfold sign
  split
  · exact .inr rfl
  · exact .inl rfl

theorem toList_letter (v : Char) : v.toString.toList = [v] := by simp [Char.toString]

theorem not_digit_letter (low : 'a' ≤ v) (high : v ≤ 'z') : v.isDigit = false ∧ v ≠ '.' ∧ v ≠ '!' := by
  have letter : Token.isLetter v := by simp [Token.isLetter, low, high]
  obtain ⟨digit, point⟩ := not_or.mp (Token.not_digit_of_letter letter)
  refine ⟨by simpa using digit, point, ?_⟩
  rintro rfl
  exact absurd low (by decide)

/-- The exponent of a letter is scanned. -/
theorem scan_exponent (n : Nat) (read : List Token) (position : Nat) {rest : List Char} (apart : Apart rest) :
    ∃ tokens position', Exponent n tokens ∧
      scanFrom read position ((if n = 1 then "" else "^" ++ toString n).toList ++ rest) =
        scanFrom (tokens.reverse ++ read) position' rest := by
  split
  · next one => exact ⟨[], position, .unit one, rfl⟩
  · have isSymbol : Token.Kind.power.IsSymbol := .inl rfl
    have caret := Token.scanFrom_symbol isSymbol read position ((toString n).toList ++ rest)
    have digits := Token.scanFrom_number (Token.isNumeral_nat n) (.symbol .power position :: read)
      (position + 1) apart
    refine ⟨_, position + 1 + (toString n).toList.length, .written position (position + 1), ?_⟩
    rw [String.toList_append]
    exact caret.trans digits

theorem stops_exponent (n : Nat) {rest : List Char} (apart : Apart rest) (d : Char)
    (first : ((if n = 1 then "" else "^" ++ toString n).toList ++ rest).head? = some d) :
    Token.isLetter d = false := by
  split at first
  · exact apart.letter d first
  · rw [String.toList_append] at first
    obtain rfl : '^' = d := Option.some.inj first
    rfl

/-- A term is scanned. -/
theorem scan_magnitude (low : 'a' ≤ v) (high : v ≤ 'z') (t : Term) (read : List Token)
    (position : Nat) {rest : List Char} (apart : Apart rest) :
    ∃ tokens position', t.Spelling v tokens ∧
      scanFrom read position ((t.magnitudeText v).toList ++ rest) =
      scanFrom (tokens.reverse ++ read) position' rest := by
  unfold magnitudeText
  split
  · next flat =>
      exact ⟨_, _, .number flat position,
        Token.scanFrom_number (Token.isNumeral_nat _) read position apart⟩
  · next powered =>
    have stops := stops_exponent t.power apart
    obtain ⟨before, start, factor, digits⟩ : ∃ tokens position', Factor t.coefficient.natAbs tokens ∧
        ∀ more, scanFrom read position
        ((if t.coefficient.natAbs = 1 then "" else toString t.coefficient.natAbs).toList ++
          v.toString.toList ++ more) =
          scanFrom (tokens.reverse ++ read) position' (v.toString.toList ++ more) := by
      split
      · next one => exact ⟨[], position, .unit one, fun more => rfl⟩
      · refine ⟨_, position + (toString t.coefficient.natAbs).toList.length, .written position,
          fun more => ?_⟩
        rw [List.append_assoc]
        refine Token.scanFrom_numeral (Token.isNumeral_nat _) read position fun c first => ?_
        rw [toList_letter] at first
        obtain rfl : v = c := Option.some.inj first
        exact not_digit_letter low high
    obtain ⟨behind, stop, exponent, raised⟩ :=
      scan_exponent t.power (⟨.letter, v.toString, some start⟩ :: (before.reverse ++ read))
        (start + v.toString.toList.length) apart
    have letter := Token.scanFrom_letter ⟨v, low, high, toList_letter v⟩ (before.reverse ++ read) start stops
    refine ⟨_, stop, .power powered factor exponent start, ?_⟩
    rw [String.toList_append, String.toList_append, List.append_assoc, digits, letter, raised]
    simp

theorem toList_sumText (v : Char) (first : Term) (rest : List Term) :
    (sumText v (first :: rest)).toList = (first.leadingText v).toList ++ rest.flatMap fun t =>
    (t.signedText v).toList := by
  induction rest using List.reverseRecOn with
  | nil => simp [sumText]
  | append_singleton rest t ih =>
    rw [← List.cons_append, sumText_append (List.cons_ne_nil first rest), String.toList_append, ih,
      List.flatMap_append, List.append_assoc]
    simp

theorem toList_signedText (v : Char) (t : Term) :
    (t.signedText v).toList = t.sign.symbol :: (t.magnitudeText v).toList := by
  unfold signedText sign
  rw [String.toList_append]
  split <;> rfl

theorem apart_tail (v : Char) (ts : List Term) : Apart (ts.flatMap fun t => (t.signedText v).toList) := by
  cases ts with
  | nil => exact Token.apart_nil
  | cons t ts =>
    rw [List.flatMap_cons, toList_signedText]
    exact Token.apart_symbol t.sign _

/-- The terms behind the first are scanned. -/
theorem scan_tail (low : 'a' ≤ v) (high : v ≤ 'z') (ts : List Term) (read : List Token) (position : Nat) :
    ∃ tokens position', Tail v ts tokens ∧
      scanFrom read position (ts.flatMap fun t => (t.signedText v).toList) =
      scanFrom (tokens.reverse ++ read) position' [] := by
  induction ts generalizing read position with
  | nil => exact ⟨[], position, .nil, rfl⟩
  | cons t ts ih =>
    have isSymbol : t.sign.IsSymbol := by
      rcases t.sign_cases with plus | minus
      · exact .inl (by rw [plus]; rfl)
      · exact .inl (by rw [minus]; rfl)
    obtain ⟨tokens, middle, spelling, first⟩ :=
      scan_magnitude low high t (.symbol t.sign position :: read) (position + 1) (apart_tail v ts)
    obtain ⟨rest, stop, tail, others⟩ := ih (tokens.reverse ++ .symbol t.sign position :: read) middle
    refine ⟨_, stop, .cons position spelling tail, ?_⟩
    rw [List.flatMap_cons, toList_signedText, List.cons_append, Token.scanFrom_symbol isSymbol, first, others]
    simp

def Ends (next : Token) : Prop := next.kind = .plus ∨ next.kind = .minus ∨ next.kind = .finish

theorem Ends.behind {next : Token} (ends : Ends next) : next.kind.IsBehind := by
  rcases ends with plus | minus | finish
  · exact .inl (by rw [plus]; rfl)
  · exact .inl (by rw [minus]; rfl)
  · exact .inr (.inr finish)

/-- A factor, a letter and an exponent are spelled out as a product. -/
theorem spelledOut_product {n k : Nat} {before behind : List Token} (factor : Factor n before)
    (exponent : Exponent k behind) {letter next : Token} (isLetter : letter.kind = .letter)
    (ends : Ends next) (rest : List Token) :
    ∃ coefficient caret power : Token, coefficient.kind = .number ∧ coefficient.text = toString n ∧
      caret.kind = .power ∧
      power.kind = .number ∧ power.text = toString k ∧
      spelledOut 0 [] none (before ++ letter :: (behind ++ next :: rest)) =
        Token.openedTerm coefficient letter ++ caret :: power :: inserted .closing ")" ::
        spelledOut 0 [] none (next :: rest) := by
  have number : letter.kind ≠ .number := by simp [isLetter]
  obtain ⟨caret, power, isCaret, isNumber, digits, taken⟩ : ∃ caret power : Token,
      caret.kind = .power ∧ power.kind = .number ∧ power.text = toString k ∧ Token.takenExponent 0
      [] (behind ++ next :: rest) = ([caret, power, inserted .closing ")"], [], next :: rest) := by
    cases exponent with
    | unit one =>
      have other : next.kind ≠ .power := by rcases ends with same | same | same <;> simp [same]
      refine ⟨inserted .power "^", inserted .number "1", rfl, rfl, by rw [one]; rfl, ?_⟩
      rw [List.nil_append]
      unfold Token.takenExponent
      split
      · next caret exponent after same =>
        obtain ⟨rfl, rfl⟩ := List.cons.inj same
        simp [other, Token.unitExponent]
      · rfl
    | written place place' =>
      exact ⟨.symbol .power place, ⟨.number, toString k, some place'⟩, rfl, rfl, rfl,
        by simp [Token.takenExponent, Token.symbol]⟩
  cases factor with
  | unit one =>
    refine ⟨inserted .number "1", caret, power, rfl, by rw [one]; rfl, isCaret, isNumber, digits, ?_⟩
    rw [List.nil_append, spelledOut, if_pos isLetter, taken]
    simp
  | written place =>
    refine ⟨⟨.number, toString n, some place⟩, caret, power, rfl, rfl, isCaret, isNumber, digits, ?_⟩
    rw [List.singleton_append, spelledOut, if_neg (by simp), if_pos rfl, spelledOut, if_pos isLetter, taken]
    simp

/-- The tokens of a term are built into its tree. -/
theorem Spelling.build (spelling : t.Spelling v tokens) {next : Token} (ends : Ends next) (rest : List Token)
    (waiting : List (Waiting (Label ν))) :
    ∃ y : Tree (Label ν), Denotes v y t ∧
      Draft.build ⟨{ waiting }, []⟩ (spelledOut 0 [] none (tokens ++ next :: rest)) =
      Draft.build ⟨{ waiting, last := some y }, []⟩ (spelledOut 0 [] none (next :: rest)) := by
  cases spelling with
  | number flat place =>
    rw [List.singleton_append, Token.spelledOut_number rfl ends.behind, Draft.build_operand (.inl rfl)]
    exact ⟨_, .number flat, rfl⟩
  | @power before behind high factor exponent place =>
    have isLetter : (⟨.letter, v.toString, some place⟩ : Token).kind = .letter := rfl
    obtain ⟨coefficient, caret, raised, number, digits, isCaret, isNumber, digits', spelled⟩ :=
      spelledOut_product factor exponent isLetter ends rest
    have room : ([] : List (Spine (Label ν))).length + 1 ≤ Expression.maxNesting := by
      simp [Expression.maxNesting]
    have denotes : Denotes v (.ofLetter coefficient ⟨.letter, v.toString, some place⟩ caret
        (.leaf { token := raised }) : Tree (Label ν)) t :=
      .power high number digits rfl (toList_letter v) isCaret isNumber digits'
    refine ⟨_, denotes, ?_⟩
    rw [List.append_assoc, List.cons_append, spelled, Draft.build_term number rfl isCaret isNumber room]
    rfl

theorem Tail.head (tail : Tail v ts tokens) {finish : Token} (isFinish : finish.kind = .finish) :
    ∃ next rest, tokens ++ [finish] = next :: rest ∧ Ends next := by
  cases tail with
  | nil => exact ⟨finish, [], rfl, .inr (.inr isFinish)⟩
  | cons place spelling tail =>
    refine ⟨_, _, rfl, ?_⟩
    rcases sign_cases _ with plus | minus
    · exact .inl plus
    · exact .inr (.inl minus)

/-- Each term behind the first takes the sum in front of it for its left operand. -/
theorem Tail.build (tail : Tail v ts tokens) {finish : Token} (isFinish : finish.kind = .finish)
    {waiting : List (Waiting (Label ν))} {y : Tree (Label ν)} {us : List Term}
    (binds : ∀ w ∈ waiting, w.Binds 1) (sum : SumOf v (Waiting.close waiting y) us) :
    ∃ z : Tree (Label ν), SumOf v z (us ++ ts) ∧
      Draft.build ⟨{ waiting, last := some y }, []⟩ (spelledOut 0 [] none (tokens ++ [finish])) = .ok z := by
  induction tail generalizing waiting y us with
  | nil =>
    refine ⟨_, by rwa [List.append_nil], ?_⟩
    rw [List.nil_append, Token.spelledOut_finish isFinish, Draft.build, if_pos isFinish]
    simp [Draft.complete, Spine.tree?]
  | @cons t ts tokens rest place spelling tail ih =>
    obtain ⟨next, after, head, ends⟩ := tail.head isFinish
    have rank : t.sign.rank? = some 1 := by
      rcases t.sign_cases with kind | kind <;> simp [kind, Token.Kind.rank?]
    have tier : t.sign.leftTier = 1 := by
      rcases t.sign_cases with kind | kind <;> simp [kind, Token.Kind.leftTier]
    have isOperator : (Token.symbol t.sign place).kind.rank?.isSome := by simp [Token.symbol, rank]
    have yields (w : Waiting (Label ν)) (member : w ∈ waiting) :
        Draft.yields (.symbol t.sign place) w.1 = true :=
      Waiting.yields_of_binds (by simp [rank]) (Nat.le_of_eq tier) (binds w member) place
    have closed : Waiting.closeWhile (Draft.yields (.symbol t.sign place)) waiting y =
        ([], Waiting.close waiting y) := by
      have all := Waiting.closeWhile_append yields [] y
      rwa [List.append_nil] at all
    obtain ⟨z, denotes, built⟩ := spelling.build ends after
      [({ token := .symbol t.sign place }, Waiting.close waiting y)]
    have more :
        SumOf v (Waiting.close [({ token := .symbol t.sign place }, Waiting.close waiting y)] z)
        (us ++ [t]) :=
      .more place sum denotes
    obtain ⟨whole, total, builtRest⟩ := ih (fun w member => by
      obtain rfl := List.mem_singleton.mp member
      exact ⟨1, rank, Nat.le_refl 1⟩) more
    refine ⟨whole, by rwa [List.append_assoc] at total, ?_⟩
    rw [List.append_assoc, List.cons_append, Token.spelledOut_operator isOperator,
      Draft.build_operator isOperator, closed, head, built, ← head, builtRest]

/-- A product that is spelled out is no number that a minus sign is taken into. -/
theorem Spelling.not_lone (spelling : t.Spelling v tokens) (powered : t.power ≠ 0) {next : Token}
    (ends : Ends next) (rest : List Token) :
    Expression.Builder.isLoneNumber (spelledOut 0 [] none (tokens ++ next :: rest)) = false := by
  cases spelling with
  | number flat place => exact absurd flat powered
  | power high factor exponent place =>
    have isLetter : (⟨.letter, v.toString, some place⟩ : Token).kind = .letter := rfl
    obtain ⟨coefficient, caret, raised, _, _, _, _, _, spelled⟩ :=
      spelledOut_product factor exponent isLetter ends rest
    rw [List.append_assoc, List.cons_append, spelled]
    exact Phrase.isLoneNumber_other (by simp [inserted]) _

theorem ofText_scanned {text : String} {read : List Token} {position : Nat}
    (scanned : scanFrom [] 0 text.toList = scanFrom read.reverse position []) :
    Tree.ofText text = Draft.build ({} : Draft (Label ν))
      (spelledOut 0 [] none (read ++ [⟨.finish, "", some position⟩])) := by
  rw [Tree.ofText, Token.ofText, Token.scan, scanned, scanFrom]
  simp only [Except.map, List.reverse_cons, List.reverse_reverse, Token.groupProducts_eq]
  rfl

/-- Behind a sign that is scanned into `lead` and leaves `waiting`, the text of the terms is built
into their sum. -/
theorem ofText_led (low : 'a' ≤ v) (high : v ≤ 'z') {first : Term} (powered : first.power ≠ 0)
    (rest : List Term) {text : String} (lead : List Token) (position : Nat)
    {waiting : List (Waiting (Label ν))} (binds : ∀ w ∈ waiting, w.Binds 1)
    (denoted : ∀ {y}, Denotes v y first → SumOf v (Waiting.close waiting y) [first])
    (scanned : scanFrom [] 0 text.toList = scanFrom lead.reverse position
      ((first.magnitudeText v).toList ++ rest.flatMap fun t => (t.signedText v).toList))
    (built : ∀ more, Expression.Builder.isLoneNumber (spelledOut 0 [] none more) = false →
      Draft.build ({} : Draft (Label ν)) (spelledOut 0 [] none (lead ++ more)) =
      Draft.build ⟨{ waiting }, []⟩ (spelledOut 0 [] none more)) :
    ∃ x : Tree (Label ν), Tree.ofText text = .ok x ∧ SumOf v x (first :: rest) := by
  obtain ⟨tokens, middle, spelling, scannedFirst⟩ :=
    scan_magnitude low high first lead.reverse position (apart_tail v rest)
  obtain ⟨others, stop, tail, scannedRest⟩ := scan_tail low high rest (tokens.reverse ++ lead.reverse) middle
  have whole : scanFrom [] 0 text.toList = scanFrom (lead ++ (tokens ++ others)).reverse stop [] := by
    refine (scanned.trans (scannedFirst.trans scannedRest)).trans ?_
    simp
  have isFinish : (⟨.finish, "", some stop⟩ : Token).kind = .finish := rfl
  obtain ⟨next, after, head, ends⟩ := tail.head isFinish
  obtain ⟨y, denotes, builtFirst⟩ := spelling.build ends after waiting
  obtain ⟨z, sum, builtRest⟩ := tail.build isFinish binds (denoted denotes)
  refine ⟨z, ?_, sum⟩
  rw [ofText_scanned whole, List.append_assoc, List.append_assoc, head,
    built _ (spelling.not_lone powered ends after)]
  exact builtFirst.trans (head ▸ builtRest)

/-- The text of a sum denotes the tree of its terms. -/
theorem ofText_sumText (low : 'a' ≤ v) (high : v ≤ 'z') (first : Term) (rest : List Term)
    (powered : first.power ≠ 0) :
    ∃ x : Tree (Label ν), Tree.ofText (sumText v (first :: rest)) = .ok x ∧ SumOf v x (first :: rest) := by
  have written : (sumText v (first :: rest)).toList = (if first.coefficient < 0 then ['-'] else []) ++
      ((first.magnitudeText v).toList ++ rest.flatMap fun t => (t.signedText v).toList) := by
    rw [toList_sumText, leadingText, String.toList_append, List.append_assoc]
    split <;> rfl
  by_cases negative : first.coefficient < 0
  · have isSymbol : Token.Kind.minus.IsSymbol := .inl rfl
    let waiting : List (Waiting (Label ν)) :=
      [({ token := .symbol .minus 0, unary := true }, .leaf { token := inserted .number "0" })]
    have binds (w : Waiting (Label ν)) (member : w ∈ waiting) : w.Binds 1 := by
      obtain rfl := List.mem_singleton.mp member
      exact ⟨1, rfl, Nat.le_refl 1⟩
    have denoted {y : Tree (Label ν)} (denotes : Denotes v y first) :
        SumOf v (Waiting.close waiting y) [first] :=
      .negative 0 negative denotes
    refine ofText_led low high powered rest [.symbol .minus 0] 1 binds denoted ?_ fun more lone => ?_
    · rw [written, if_pos negative]
      exact Token.scanFrom_symbol isSymbol [] 0 _
    · rw [List.singleton_append, Token.spelledOut_operator rfl]
      exact Draft.build_sign (.inr rfl) fun _ => lone
  · refine ofText_led low high powered rest [] 0 (fun _ member => absurd member List.not_mem_nil)
      (.positive negative) ?_ fun _ _ => rfl
    rw [written, if_neg negative]
    rfl

end Term

end Stepwise
