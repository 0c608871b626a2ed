import Stepwise.Proofs.Tree.Moved
import Stepwise.Proofs.Tree.Operand
import Stepwise.Proofs.Tree.Rebuilding

/-! The exponent of a letter with a coefficient. Main statement: a number or a bracket behind the
caret is the exponent of the letter, and an operator behind it takes the whole product, which the
brackets put in around it enclose. -/
namespace Stepwise

open Token (behindGroup)

variable {ν : Type}

namespace Draft

variable {token : Token} {above : Label ν}

/-- A power leaves every operator waiting. -/
theorem yields_power (power : token.kind = .power) : yields token above = false := by
  cases outer : above.token.kind <;>
    simp [yields, power, Expression.Builder.climbsOver, outer, Token.Kind.rank?]

/-- Only the kind of the operator above matters. -/
theorem yields_congr {other : Label ν} (same : above.token.kind = other.token.kind) :
    yields token above = yields token other := by
  unfold yields
  rw [same]

end Draft

namespace Waiting

/-- Operators are closed from the innermost on, up to the first that stays. -/
theorem closeWhile_inner (closes : Label ν → Bool) (inner outer : List (Waiting (Label ν)))
    (x : Tree (Label ν)) :
    closeWhile closes (inner ++ outer) x =
      if (closeWhile closes inner x).1 = [] then closeWhile closes outer (close inner x)
      else ((closeWhile closes inner x).1 ++ outer, (closeWhile closes inner x).2) := by
  induction inner generalizing x with
  | nil => rfl
  | cons w inner ih =>
    obtain ⟨a, left⟩ := w
    by_cases first : closes a
    · rw [List.cons_append, closeWhile, closeWhile, if_pos first, if_pos first, ih]
      rfl
    · rw [List.cons_append, closeWhile, closeWhile, if_neg first, if_neg first, if_neg (by simp)]
      rfl

end Waiting

namespace Run

variable {waiting : List (Waiting (Label ν))} (inner : List (Waiting (Label ν)))
  {w : Waiting (Label ν)} {slot : Slot ν} {tokens rest : List Token}
  {r base k : Tree (Label ν)} {op caret : Label ν}

/-- Where the outermost operator is no power, no power stands at the root. -/
theorem loose (run : Run [] (inner ++ [w]) slot tokens r) (other : w.1.token.kind ≠ .power) :
    r.top.token.kind ≠ .power := by
  induction size : tokens.length using Nat.strong_induction_on generalizing inner w slot tokens with
  | _ size ih =>
    subst size
    cases slot with
    | gap call held =>
      obtain ⟨added, x, after, ⟨shorter, -⟩, run⟩ := run.operand rfl (fun _ absurd => (by cases absurd))
      rw [← List.append_assoc] at run
      exact ih _ shorter _ run other rfl
    | full x =>
      cases run with
      | finish =>
        rw [Waiting.close_append]
        exact other
      | @operator _ _ _ rest _ token _ _ run =>
        have shorter : rest.length < (token :: rest).length := Nat.lt_succ_self _
        rw [Waiting.closeWhile_inner] at run
        split at run
        · by_cases takes : Draft.yields token w.1
          · have power : token.kind ≠ .power := fun power => by simp [Draft.yields_power power] at takes
            rw [Waiting.closeWhile, if_pos takes] at run
            exact ih _ shorter [] run power rfl
          · rw [Waiting.closeWhile, if_neg takes] at run
            exact ih _ shorter [_] run other rfl
        · exact ih _ shorter (_ :: _) run other rfl

/-- Where a power waits for what another waits for, its right operand does not depend on its left one. -/
theorem chained (run : Run [] (inner ++ [(op, k), (caret, base)]) slot tokens r)
    (power : op.token.kind = .power) (outer : caret.token.kind = .power) :
    r.top.token.kind ≠ .power ∨
      ∃ f, r = .fork caret base (.fork op k f) ∧
      ∀ k', Run [] (inner ++ [(op, k')]) slot tokens (.fork op k' f) := by
  induction size : tokens.length using Nat.strong_induction_on generalizing inner slot tokens with
  | _ size ih =>
    subst size
    cases slot with
    | gap call held =>
      obtain ⟨added, x, after, ⟨shorter, reads⟩, run⟩ := run.operand rfl (fun _ absurd => (by cases absurd))
      rw [← List.append_assoc] at run
      rcases ih _ shorter _ run rfl with other | ⟨f, same, again⟩
      · exact .inl other
      · refine .inr ⟨f, same, fun k' => reads ?_⟩
        rw [← List.append_assoc]
        exact again k'
    | full x =>
      cases run with
      | finish kind =>
        refine .inr ⟨Waiting.close inner x, Waiting.close_append .., fun k' => ?_⟩
        have run : Run [] (inner ++ [(op, k')]) (.full x) _ _ := .finish kind
        rwa [Waiting.close_append] at run
      | @operator _ _ _ rest _ token rank written run =>
        have shorter : rest.length < (token :: rest).length := Nat.lt_succ_self _
        rw [Waiting.closeWhile_inner] at run
        split at run
        · next stays =>
          by_cases takes : Draft.yields token op
          · have both : Draft.yields token caret := Draft.yields_congr (power.trans outer.symm) ▸ takes
            have looser : token.kind ≠ .power := fun same => by simp [Draft.yields_power same] at takes
            rw [Waiting.closeWhile, if_pos takes, Waiting.closeWhile, if_pos both] at run
            exact .inl (run.loose [] looser)
          · rw [Waiting.closeWhile, if_neg takes] at run
            rcases ih _ shorter [_] run rfl with other | ⟨f, same, again⟩
            · exact .inl other
            · refine .inr ⟨f, same, fun k' => .operator rank written ?_⟩
              rw [Waiting.closeWhile_inner, if_pos stays, Waiting.closeWhile, if_neg takes]
              exact again k'
        · next stays =>
          rcases ih _ shorter (_ :: _) run rfl with other | ⟨f, same, again⟩
          · exact .inl other
          · refine .inr ⟨f, same, fun k' => .operator rank written ?_⟩
            rw [Waiting.closeWhile_inner, if_neg stays]
            exact again k'

end Run

/-- What stands behind the number or the bracketed group at the front. -/
def Token.behindExponent : List Token → List Token
  | [] => []
  | first :: rest => if first.kind = .opening then behindGroup 0 rest else rest

def Token.goesOn (tokens : List Token) : Option Token.Kind :=
  (Token.behindExponent tokens).head?.map Token.kind

section Shifted
variable {distance : Nat}

theorem Token.moved_behindGroup (depth : Nat) (tokens : List Token) :
    behindGroup depth (tokens.map (moved distance)) = (behindGroup depth tokens).map (moved distance) := by
  induction tokens generalizing depth with
  | nil => rfl
  | cons token rest ih =>
    rw [List.map_cons]
    by_cases opening : token.kind = .opening
    · rw [behindGroup_opening opening, behindGroup_opening ((kind_moved token).trans opening), ih]
    · by_cases closing : token.kind = .closing
      · cases depth with
        | zero => rw [behindGroup_end closing, behindGroup_end ((kind_moved token).trans closing)]
        | succ depth =>
          rw [behindGroup_closing closing,
            behindGroup_closing ((kind_moved token).trans closing), ih]
      · rw [behindGroup_other opening closing,
          behindGroup_other (by simpa using opening) (by simpa using closing), ih]

theorem Token.goesOn_moved (tokens : List Token) : goesOn (tokens.map (moved distance)) = goesOn tokens := by
  have same : behindExponent (tokens.map (moved distance)) =
      (behindExponent tokens).map (moved distance) := by
    cases tokens with
    | nil => rfl
    | cons first rest =>
      simp only [List.map_cons, behindExponent, kind_moved, moved_behindGroup]
      split <;> rfl
  unfold goesOn
  rw [same]
  cases behindExponent tokens <;> rfl

end Shifted

namespace Run

variable {waiting : List (Waiting (Label ν))} {first coefficient letter caret : Token}
  {tokens rest : List Token}
  {r base e : Tree (Label ν)} {a : Label ν}

/-- A number or a bracketed group is the exponent of a letter in front of it, unless the number is itself a
coefficient. -/
theorem exponent (run : Run [] waiting (.gap none none) (first :: rest) r)
    (starts : first.kind = .number ∨ first.kind = .opening) (number : coefficient.kind = .number)
    (isLetter : letter.kind = .letter) (isCaret : caret.kind = .power) :
    (first.kind = .number ∧ ∃ next after, rest = next :: after ∧ ¬ next.kind.IsBehind) ∨
      ∃ k, Run [] waiting (.full k) (Token.behindExponent (first :: rest)) r ∧
        ∀ {r'}, Run [] [] (.full (.ofLetter coefficient letter caret k))
        (Token.behindExponent (first :: rest)) r' →
          Run [] [] (.gap none none) (coefficient :: letter :: caret :: first :: rest) r' := by
  have differs {kind : Token.Kind} (same : first.kind = kind)
      (other : kind ≠ .number ∧ kind ≠ .opening) : False := by
    rcases starts with h | h
    · exact other.1 (same.symm.trans h)
    · exact other.2 (same.symm.trans h)
  have bare (other : first.kind ≠ .opening) : Token.behindExponent (first :: rest) = rest := if_neg other
  cases run with
  | number kind run =>
    rw [bare (by simp [kind])]
    exact .inr ⟨_, run, fun run => .coefficient number isLetter (.power isLetter isCaret kind run)⟩
  | factor kind call =>
    refine .inl ⟨kind, _, _, rfl, ?_⟩
    rcases call with h | h | h | h <;> simp [h, Token.Kind.IsBehind, Token.Kind.rank?]
  | coefficient kind scaled =>
    refine .inl ⟨kind, _, _, rfl, ?_⟩
    simp [scaled, Token.Kind.IsBehind, Token.Kind.rank?]
  | opening kind run =>
    obtain ⟨k, goes, again⟩ := run.enclosed (List.nil_append _).symm
    rw [Token.behindExponent, if_pos kind]
    refine .inr ⟨k, goes, fun {r'} run => .coefficient number isLetter (.raised isLetter isCaret kind ?_)⟩
    exact @again { waiting := [], base := some (coefficient, letter, caret) } r' run
  | factorial kind | letter kind | power kind | raised kind => exact (differs kind (by simp)).elim
  | negative kind => exact (differs kind (by simp)).elim
  | sign kind => rcases kind with h | h <;> exact (differs h (by simp)).elim
  | call kind => rcases kind with h | h | h | h <;> exact (differs h (by simp)).elim

/-- A letter whose exponent is a number ends with it. -/
theorem behind_power
    (run : Run [] waiting (.gap none none) (coefficient :: letter :: caret :: first :: rest) r)
    (number : coefficient.kind = .number) (isLetter : letter.kind = .letter)
    (isCaret : caret.kind = .power) (digits : first.kind = .number) :
    ∃ next after, rest = next :: after ∧ next.kind.IsBehind := by
  cases run with
  | number _ run =>
    obtain ⟨next, after, same, behind⟩ := run.behind
    obtain ⟨rfl, -⟩ := List.cons.inj same
    simp [isLetter, Token.Kind.IsBehind, Token.Kind.rank?] at behind
  | coefficient _ _ run =>
    cases run with
    | letter _ bare => exact absurd ⟨isCaret, .inl digits⟩ bare
    | power _ _ _ run => exact run.behind
    | raised _ _ opens => simp [digits] at opens
  | factor _ call => simp [isLetter, Token.Kind.IsCall] at call
  | factorial kind | negative kind | opening kind | letter kind | power kind | raised kind =>
    simp [number] at kind
  | sign kind => simp [number] at kind
  | call kind => simp [number, Token.Kind.IsCall] at kind

/-- Behind the first operand of an exponent, a power goes on or the text ends, where a power stands
at the root. -/
theorem behind_operand {outer : Label ν} {k right : Tree (Label ν)}
    (run : Run [] [(outer, base)] (.full k) tokens (.fork a e right))
    (caret : outer.token.kind = .power) (power : a.token.kind = .power) :
    (∃ finish : Token, finish.kind = .finish ∧ tokens = [finish] ∧ right = k) ∨
      ∃ (token : Token) (rest : List Token) (f : Tree (Label ν)), token.kind = .power ∧
      token.isInserted = false ∧
        tokens = token :: rest ∧ right = .fork { token } k f ∧
          ∀ k', Run [] [({ token }, k')] (.gap none none) rest (.fork { token } k' f) := by
  cases run with
  | finish kind => exact .inl ⟨_, kind, rfl, rfl⟩
  | @operator _ _ _ rest _ token rank written run =>
    by_cases same : token.kind = .power
    · rw [Waiting.closeWhile, if_neg (by simp [Draft.yields_power same])] at run
      rcases run.chained [] same caret with other | ⟨f, root, again⟩
      · exact absurd power other
      · cases root
        exact .inr ⟨token, rest, f, same, written, rfl, rfl, again⟩
    · refine absurd power (?_ : (Tree.fork a e right).top.token.kind ≠ .power)
      rw [Waiting.closeWhile] at run
      split at run
      · exact run.loose [] same
      · next stays =>
        have looser : Draft.yields token outer := by
          cases kind : token.kind <;>
            simp [Draft.yields, Expression.Builder.climbsOver, kind, caret, written,
              Token.Kind.rank?] at rank same ⊢
        exact absurd looser stays

variable {outer : Label ν} {right : Tree (Label ν)}

/-- What becomes of an exponent when the letter of an implicit product takes it. -/
theorem product (coefficient letter caret : Token)
    (run : Run [] [(outer, base)] (.gap none none) (first :: rest) (.fork a e right))
    (outerPower : outer.token.kind = .power) (power : a.token.kind = .power)
    (starts : first.kind = .number ∨ first.kind = .opening) (number : coefficient.kind = .number)
    (isLetter : letter.kind = .letter) (isCaret : caret.kind = .power) :
    (Token.goesOn (first :: rest) = some .finish ∧
      Run [] [] (.gap none none) (coefficient :: letter :: caret :: first :: rest)
      (.ofLetter coefficient letter caret right)) ∨
    (Token.goesOn (first :: rest) = some .power ∧
    ∃ (b : Label ν) (k f : Tree (Label ν)), right = .fork b k f ∧
      b.token.kind = .power ∧ Run [] [] (.gap none none) (coefficient :: letter :: caret :: first :: rest)
        (.fork b (.ofLetter coefficient letter caret k) f)) ∨
    (Token.goesOn (first :: rest) ≠ some .finish ∧ Token.goesOn (first :: rest) ≠ some .power ∧
      ∀ r : Tree (Label ν),
      ¬ Run [] [] (.gap none none) (coefficient :: letter :: caret :: first :: rest) r) := by
  rcases run.exponent starts number isLetter isCaret with ⟨digits, next, after, rfl, other⟩ | ⟨k, run, reads⟩
  · have goesOn : Token.goesOn (first :: next :: after) = some next.kind := by
      simp [Token.goesOn, Token.behindExponent, digits]
    rw [goesOn]
    refine .inr (.inr ⟨fun same => ?_, fun same => ?_, fun r run => ?_⟩)
    · exact other (.inr (.inr (Option.some.inj same)))
    · exact other (.inl (by simp [Option.some.inj same, Token.Kind.rank?]))
    · obtain ⟨_, _, same, behind⟩ := run.behind_power number isLetter isCaret digits
      obtain ⟨rfl, -⟩ := List.cons.inj same
      exact other behind
  · rcases run.behind_operand outerPower
      power with ⟨finish, kind, ends, rfl⟩ | ⟨token, later, f, kind, written, goes, rfl, again⟩
    · refine .inl ⟨by simp [Token.goesOn, ends, kind], reads ?_⟩
      rw [ends]
      exact .finish kind
    · refine .inr (.inl ⟨by simp [Token.goesOn, goes, kind], _, k, f, rfl, kind, reads ?_⟩)
      rw [goes]
      exact .operator (by simp [kind, Token.Kind.rank?]) written (again _)

end Run

namespace Token

variable {tokens : List Token}

theorem moved_moved (far further : Nat) (token : Token) :
    (token.moved far).moved further = token.moved (far + further) := by
  obtain ⟨kind, text, position⟩ := token
  cases position with
  | none => rfl
  | some position => simp [moved, Nat.add_assoc]

/-- Scanning goes on behind a caret. -/
theorem scanFrom_caret {text : List Char} (scanned : scanFrom [] 0 text = .ok tokens)
    (read : List Token) (position : Nat) :
    scanFrom read position ('^' :: text) =
      .ok (read.reverse ++ symbol .power position :: tokens.map (moved (position + 1))) := by
  obtain ⟨later, rfl, again⟩ := scanFrom_moved scanned (position + 1)
  have further := again (symbol .power position :: read)
  rw [show ('^' : Char) = Kind.symbol .power from rfl, scanFrom_symbol (.inl rfl)]
  rw [Nat.zero_add] at further
  simpa using further

theorem scan_power {text : String} (scanned : scan text = .ok tokens) :
    scan ("2^" ++ text) = .ok (⟨.number, "2", some 0⟩ :: symbol .power 1 :: tokens.map (moved 2)) := by
  have two : IsNumeral "2".toList := .whole (by simp) (by simp)
  have start : ("2^" ++ text).toList = "2".toList ++ '^' :: text.toList := String.toList_append
  rw [scan, start, scanFrom_numeral two _ _ (by simp)]
  exact scanFrom_caret scanned ..

/-- The tokens of a letter with a coefficient and an exponent. -/
theorem scan_product {number gap name text : String} (numeral : IsNumeral number.toList)
    (blank : ∀ c ∈ gap.toList, Text.isBlank c) (small : ∃ c, 'a' ≤ c ∧ c ≤ 'z' ∧ name.toList = [c])
    (scanned : scan text = .ok tokens) :
    scan (number ++ gap ++ name ++ "^" ++ text) = .ok (⟨.number, number, some 0⟩ ::
      ⟨.letter, name, some (number.length + gap.length)⟩ :: symbol .power (number.length + gap.length + 1) ::
        tokens.map (moved (number.length + gap.length + 2))) := by
  obtain ⟨c, low, high, single⟩ := id small
  have letter : isLetter c := by simp [isLetter, low, high]
  have ends (d : Char) (first : (gap.toList ++ (name.toList ++ '^' :: text.toList)).head? = some d) :
      d.isDigit = false ∧ d ≠ '.' ∧ d ≠ '!' := by
    have other : ¬ (d.isDigit ∨ d = '.') ∧ d ≠ '!' := by
      cases spaces : gap.toList with
      | nil =>
        simp [spaces, single] at first
        subst first
        refine ⟨not_digit_of_letter letter, ?_⟩
        rintro rfl
        cases letter
      | cons space more =>
        simp [spaces] at first
        subst first
        have isBlank := blank space (by simp [spaces])
        refine ⟨fun digit => by simp [not_blank_of_digit digit] at isBlank, ?_⟩
        rintro rfl
        cases isBlank
    simpa [not_or, and_assoc] using other
  have caret : "^".toList ++ text.toList = '^' :: text.toList := rfl
  simp only [scan, String.toList_append, List.append_assoc, caret]
  rw [scanFrom_numeral numeral _ _ ends, scanFrom_blanks blank,
    scanFrom_letter small _ _ (by simp [isLetter])]
  have further := scanFrom_caret scanned (⟨.letter, name, some (number.length + gap.length)⟩ ::
    [⟨.number, number, some 0⟩]) (number.length + gap.length + 1)
  simpa [single, String.length_toList] using further

end Token

namespace Expression

open Token (symbol goesOn)

variable {number gap name text : String} {first : Token} {rest : List Token} {e : Expression ν} {a : Label ν}
  {base exponent : Tree (Label ν)}

/-- Behind a number and a caret, the exponent is read over them. -/
theorem run_after_caret {two caret : Token} {tokens : List Token} {x : Tree (Label ν)}
    (run : Run [] [] (.gap none none) (two :: caret :: tokens) x) (number : two.kind = .number)
    (isCaret : caret.kind = .power) :
    Run [] [({ token := caret }, .leaf { token := two })] (.gap none none) tokens x := by
  cases run with
  | number _ run =>
    cases run with
    | operator _ _ run => exact run
    | finish kind => simp [isCaret] at kind
  | coefficient _ isLetter => simp [isCaret] at isLetter
  | factor _ call => simp [isCaret, Token.Kind.IsCall] at call
  | factorial kind | negative kind | opening kind | letter kind | power kind | raised kind =>
    simp [number] at kind
  | sign kind => simp [number] at kind
  | call kind => simp [number, Token.Kind.IsCall] at kind

/-- A number or a bracketed group behind the caret is the exponent of the letter. It is folded into
the implicit product, so a power that stands behind it takes the product, and what cannot stand
behind an operand cannot stand there. -/
theorem ofText_exponent (numeral : Token.IsNumeral number.toList) (blank : ∀ c ∈ gap.toList, Text.isBlank c)
    (small : ∃ c, 'a' ≤ c ∧ c ≤ 'z' ∧ name.toList = [c]) (scanned : Token.scan text = .ok (first :: rest))
    (starts : first.kind = .number ∨ first.kind = .opening) (parsed : ofText ("2^" ++ text) = .ok e)
    (displays : e.Displays (.fork a base exponent)) (power : a.token.kind = .power)
    (shallow : Token.Shallow (number ++ gap ++ name ++ "^" ++ text)) :
    let distance := number.length + gap.length
    let raised : Tree (Label ν) → Tree (Label ν) := fun k => .ofLetter ⟨.number, number, some 0⟩
      ⟨.letter, name, some distance⟩ (symbol .power (distance + 1)) (k.moved distance)
    (goesOn (first :: rest) = some .finish ∧ ∃ f : Expression ν,
      ofText (number ++ gap ++ name ++ "^" ++ text) = .ok f ∧ f.Displays (raised exponent)) ∨
    (goesOn (first :: rest) = some .power ∧ ∃ (b : Label ν) (k m : Tree (Label ν)) (f : Expression ν),
      b.token.kind = .power ∧ exponent = .fork b k m ∧ ofText (number ++ gap ++ name ++ "^" ++ text) = .ok f ∧
        f.Displays (.fork (b.moved distance) (raised k) (m.moved distance))) ∨
    (goesOn (first :: rest) ≠ some .finish ∧ goesOn (first :: rest) ≠ some .power ∧
      ∀ f : Expression ν, ofText (number ++ gap ++ name ++ "^" ++ text) ≠ .ok f) := by
  intro distance raised
  obtain ⟨x, built, again⟩ := ofText_displays parsed
  obtain rfl := displays.unique again
  have run := run_after_caret (run_of_text (Token.scan_power scanned) built) rfl rfl
  replace run := run.moved distance
  have scannedProduct := Token.scan_product numeral blank small scanned
  have same : ((first :: rest).map (Token.moved 2)).map (Token.moved distance) =
      (first :: rest).map (Token.moved (distance + 2)) := by
    rw [List.map_map, Nat.add_comm]
    exact List.map_congr_left fun token _ => Token.moved_moved ..
  rw [same] at run
  rw [List.map_cons] at run scannedProduct
  have kept : goesOn (first.moved (distance + 2) :: rest.map (Token.moved (distance + 2))) =
      goesOn (first :: rest) :=
    Token.goesOn_moved (first :: rest)
  rcases run.product ⟨.number, number, some 0⟩
    ⟨.letter, name, some distance⟩ (symbol .power (distance + 1)) rfl power starts rfl rfl
    rfl with ⟨ends, run⟩ | ⟨goes, b, k, m, same, powers, run⟩ | ⟨other, others, fails⟩
  · refine .inl ⟨kept ▸ ends, ?_⟩
    exact ofText_of_tree (run.ofText scannedProduct shallow)
  · obtain ⟨f, parsed, displays⟩ := ofText_of_tree (run.ofText scannedProduct shallow)
    cases exponent with
    | leaf | group => cases same
    | fork b' k' m' =>
      cases same
      exact .inr (.inl ⟨kept ▸ goes, b', k', m', f, powers, rfl, parsed, displays⟩)
  · refine .inr (.inr ⟨kept ▸ other, kept ▸ others, fun f parsed => ?_⟩)
    obtain ⟨y, built, -⟩ := ofText_displays parsed
    exact fails y (run_of_text scannedProduct built)

end Expression

/-- The tree of `2^2^3`. -/
def Tree.tower : Tree (Label Empty) :=
  .fork { token := .symbol .power 1 } (.leaf { token := ⟨.number, "2", some 0⟩ })
    (.fork { token := .symbol .power 3 } (.leaf { token := ⟨.number, "2", some 2⟩ })
    (.leaf { token := ⟨.number, "3", some 4⟩ }))

namespace Expression

/-- In `3 x^2^3` the second power takes the product. -/
theorem ofText_exponent_power : ∃ e f : Outline,
    Token.IsNumeral "3".toList ∧ (∀ c ∈ " ".toList, Text.isBlank c) ∧
      (∃ c, 'a' ≤ c ∧ c ≤ 'z' ∧ "x".toList = [c]) ∧
      Token.scan "2^3" = .ok
      [⟨.number, "2", some 0⟩, .symbol .power 1, ⟨.number, "3", some 2⟩, ⟨.finish, "", some 3⟩] ∧
      ofText ("2^" ++ "2^3") = .ok e ∧ e.Displays Tree.tower ∧
      Token.Shallow ("3" ++ " " ++ "x" ++ "^" ++ "2^3") ∧
      ofText ("3" ++ " " ++ "x" ++ "^" ++ "2^3") = .ok f ∧
      f.Displays (.fork { token := .symbol .power 5 }
      (.ofLetter ⟨.number, "3", some 0⟩ ⟨.letter, "x", some 2⟩ (.symbol .power 3)
        (.leaf { token := ⟨.number, "2", some 4⟩ })) (.leaf { token := ⟨.number, "3", some 6⟩ })) := by
  have numeral : Token.IsNumeral "3".toList := .whole (by simp) (by simp)
  have blank : ∀ c ∈ " ".toList, Text.isBlank c := by simp [Text.isBlank]
  have small : ∃ c, 'a' ≤ c ∧ c ≤ 'z' ∧ "x".toList = [c] := ⟨'x', by decide, by decide, rfl⟩
  have scanned : Token.scan "2^3" =
      .ok [⟨.number, "2", some 0⟩, .symbol .power 1, ⟨.number, "3", some 2⟩, ⟨.finish, "", some 3⟩] := by cbv
  have built : Tree.ofText ("2^" ++ "2^3") = .ok Tree.tower := by cbv
  have shallow : Token.Shallow ("3" ++ " " ++ "x" ++ "^" ++ "2^3") :=
    Token.shallow_of_nesting (show _ = Except.ok 1 by cbv) (by decide)
  obtain ⟨e, parsed, displays⟩ := ofText_of_tree built
  refine ⟨e, ?_⟩
  rcases ofText_exponent numeral blank small scanned (.inl rfl) parsed displays rfl shallow with
    ⟨ends, -⟩ | ⟨-, b, k, m, f, -, same, parsed', displays'⟩ | ⟨-, others, -⟩
  · cases ends
  · cases same
    exact ⟨f, numeral, blank, small, scanned, parsed, displays, shallow, parsed', displays'⟩
  · exact absurd rfl others

/-- In `2x^2^3` the letter does not take the whole exponent that `2` takes in `2^2^3`. -/
theorem ofText_exponent_folded : ∃ (e f : Outline) (y : Tree (Label Empty)),
    ofText "2^2^3" = .ok e ∧ e.Displays Tree.tower ∧ ofText "2x^2^3" = .ok f ∧ f.Displays y ∧
      y.map (fun a => a.token.text) =
      .fork "^" (.fork "*" (.leaf "2") (.fork "^" (.leaf "x") (.leaf "2"))) (.leaf "3") ∧
      y.map (fun a => a.token.text) ≠
      .fork "*" (.leaf "2") (.fork "^" (.leaf "x") (.fork "^" (.leaf "2") (.leaf "3"))) := by
  have tower : Tree.ofText "2^2^3" = .ok Tree.tower := by cbv
  have built : Tree.ofText "2x^2^3" =
    .ok (.fork { token := .symbol .power 4 } (.ofLetter ⟨.number, "2", some 0⟩
      ⟨.letter, "x", some 1⟩ (.symbol .power 2) (.leaf { token := ⟨.number, "2", some 3⟩ }))
      (.leaf { token := ⟨.number, "3", some 5⟩ }) : Tree (Label Empty)) := by cbv
  obtain ⟨e, parsed, displays⟩ := ofText_of_tree tower
  obtain ⟨f, parsed', displays'⟩ := ofText_of_tree built
  exact ⟨e, f, _, parsed, displays, parsed', displays', rfl,
    by simp [Tree.map, Tree.ofLetter, Token.symbol, Token.Kind.symbol]⟩

end Expression

end Stepwise
