import Mathlib
import Stepwise.Token.ImplicitProduct

/-! How tokens are spelled. Main statement: every token of a text is spelled as its kind asks for,
with characters of the text, and so are the tokens that spell out its implicit products. -/
namespace Stepwise.Token

/-- Decimal digits with at most one point, which is not at the end. -/
inductive IsNumeral : List Char → Prop
  | whole {digits : List Char} (nonempty : digits ≠ []) (all : ∀ c ∈ digits, c.isDigit) : IsNumeral digits
  | point {digits fraction : List Char} (all : ∀ c ∈ digits, c.isDigit) (nonempty : fraction ≠ [])
      (allBehind : ∀ c ∈ fraction, c.isDigit) : IsNumeral (digits ++ '.' :: fraction)

theorem IsNumeral.first {text : List Char} (numeral : IsNumeral text) :
    ∃ c rest, text = c :: rest ∧ (c.isDigit ∨ c = '.') := by
  cases numeral with
  | whole nonempty all =>
    obtain ⟨c, rest, rfl⟩ := List.exists_cons_of_ne_nil nonempty
    exact ⟨c, rest, rfl, .inl (all c (List.mem_cons_self ..))⟩
  | @point digits fraction all nonempty allBehind =>
    cases digits with
    | nil => exact ⟨'.', fraction, rfl, .inr rfl⟩
    | cons c rest => exact ⟨c, _, rfl, .inl (all c (List.mem_cons_self ..))⟩

def Spelled (token : Token) : Prop :=
  match token.kind with
  | .number | .factorial => IsNumeral token.text.toList
  | .letter => ∃ c, 'a' ≤ c ∧ c ≤ 'z' ∧ token.text.toList = [c]
  | .trig => token.text = "sin" ∨ token.text = "cos" ∨ token.text = "tan"
  | .log => token.text = "log"
  | .sqrt => token.text = "sqrt"
  | .diff => token.text = "diff"
  | .equals => token.text = "="
  | .plus => token.text = "+"
  | .minus => token.text = "-"
  | .times => token.text = "*"
  | .divide => token.text = "/"
  | .power => token.text = "^"
  | .opening => token.text = "("
  | .closing => token.text = ")"
  | .polynomial => False
  | .finish => token.text = ""

structure From (source : List Char) (token : Token) : Prop where
  spelled : token.Spelled
  characters : ∀ c ∈ token.text.toList, c ∈ source
  mark : token.kind = .factorial → '!' ∈ source
  written : token.isInserted = false

theorem From.mono {source more : List Char} (subset : ∀ c ∈ source, c ∈ more) {token : Token}
    (origin : token.From source) :
    token.From more :=
  ⟨origin.spelled, fun c member => subset c (origin.characters c member),
    fun kind => subset _ (origin.mark kind),
    origin.written⟩

theorem mem_takeWhile_digit {c : Char} {source : List Char}
    (member : c ∈ source.takeWhile Char.isDigit) : c.isDigit :=
  List.all_eq_true.mp List.all_takeWhile c member

theorem numberLexeme_from {source text rest : List Char} (position : Nat) (numeral : IsNumeral text)
    (characters : ∀ c ∈ text, c ∈ source) (behind : ∀ c ∈ rest, c ∈ source) :
    (numberLexeme position text rest).1.From source := by
  unfold numberLexeme
  split
  · next more =>
    have list : (String.ofList text).toList = text := String.toList_ofList
    exact ⟨by simpa [Spelled, list] using numeral, by simpa [list] using characters,
      fun _ => behind _ (List.mem_cons_self ..), rfl⟩
  · have list : (String.ofList text).toList = text := String.toList_ofList
    exact ⟨by simpa [Spelled, list] using numeral, by simpa [list] using characters,
      fun kind => by simp at kind, rfl⟩

theorem scanNumber_from {source : List Char}
    {position : Nat} {lexeme : Lexeme} (head : ∃ c rest, source = c :: rest ∧ (c.isDigit ∨ c = '.'))
    (scanned : scanNumber position source = .ok lexeme) :
    lexeme.1.From source := by
  have parted : source.takeWhile Char.isDigit ++ source.dropWhile Char.isDigit = source :=
    List.takeWhile_append_dropWhile
  have first (c : Char) (member : c ∈ source.takeWhile Char.isDigit) : c ∈ source :=
    (List.takeWhile_prefix _).subset member
  have second (c : Char) (member : c ∈ source.dropWhile Char.isDigit) : c ∈ source :=
    (List.dropWhile_suffix _).subset member
  have digits (c : Char) (member : c ∈ source.takeWhile Char.isDigit) : c.isDigit :=
    mem_takeWhile_digit member
  unfold scanNumber at scanned
  simp only at scanned
  split at scanned
  · next more behind =>
    rw [behind] at second
    have inMore (c : Char) (member : c ∈ more) : c ∈ source := second c (List.mem_cons_of_mem _ member)
    split at scanned
    · simp at scanned
    · split at scanned
      · simp at scanned
      · next rest other nonempty =>
        obtain rfl := Except.ok.inj scanned
        refine numberLexeme_from position
            (.point digits nonempty fun c member => mem_takeWhile_digit member) ?_ fun c member =>
          inMore c ((List.dropWhile_suffix _).subset member)
        intro c member
        rcases List.mem_append.mp member with member | member
        · exact first c member
        · rcases List.mem_cons.mp member with rfl | member
          · exact second _ (List.mem_cons_self ..)
          · exact inMore c ((List.takeWhile_prefix _).subset member)
  · next rest other =>
    obtain rfl := Except.ok.inj scanned
    refine numberLexeme_from position (.whole ?_ digits) first second
    obtain ⟨c, tail, rfl, start⟩ := head
    rcases start with digit | rfl
    · simp [digit]
    · exact absurd rfl (other tail)

theorem wordKind_spelled {word : String} {kind : Kind} (position : Option Nat)
    (found : wordKind? word = some kind) :
    Spelled ⟨kind, word, position⟩ ∧ kind ≠ .factorial := by
  unfold wordKind? at found
  split at found
  any_goals
    obtain rfl := Option.some.inj found
    exact ⟨by simp [Spelled], by simp⟩
  split at found
  · next c letters =>
    split at found
    · next small =>
      obtain rfl := Option.some.inj found
      exact ⟨⟨c, small.1, small.2, letters⟩, by simp⟩
    · simp at found
  · simp at found

theorem symbolKind_spelled {c : Char} {kind : Kind} (position : Option Nat)
    (found : symbolKind? c = some kind) :
    Spelled ⟨kind, c.toString, position⟩ ∧ kind ≠ .factorial := by
  unfold symbolKind? at found
  split at found
  any_goals
    obtain rfl := Option.some.inj found
    exact ⟨rfl, by simp⟩
  simp at found

theorem scanLexeme_from {c : Char} {rest : List Char} {position : Nat} {lexeme : Lexeme}
    (scanned : scanLexeme position c rest = .ok lexeme) : lexeme.1.From (c :: rest) := by
  unfold scanLexeme at scanned
  split at scanned
  · next start => exact scanNumber_from ⟨c, rest, rfl, start⟩ scanned
  · split at scanned
    · unfold scanWord at scanned
      simp only at scanned
      split at scanned
      · next kind found =>
        obtain rfl := Except.ok.inj scanned
        obtain ⟨spelled, other⟩ := wordKind_spelled (some position) found
        refine ⟨spelled, fun d member => ?_, fun factorial => absurd factorial other, rfl⟩
        rw [String.toList_ofList] at member
        exact (List.takeWhile_prefix _).subset member
      · simp at scanned
    · split at scanned
      · next kind found =>
        obtain rfl := Except.ok.inj scanned
        obtain ⟨spelled, other⟩ := symbolKind_spelled (some position) found
        refine ⟨spelled, fun d member => ?_, fun factorial => absurd factorial other, rfl⟩
        simp [Char.toString] at member
        exact member ▸ List.mem_cons_self ..
      · simp at scanned

theorem scanFrom_from {read tokens : List Token} {position : Nat} {source whole : List Char}
    (part : ∀ c ∈ source, c ∈ whole) (before : ∀ token ∈ read, token.From whole)
    (scanned : scanFrom read position source = .ok tokens) : ∀ token ∈ tokens, token.From whole := by
  fun_induction scanFrom read position source with
  | case1 read position =>
    obtain rfl := Except.ok.inj scanned
    intro token member
    rcases List.mem_cons.mp (List.mem_reverse.mp member) with rfl | member
    · exact ⟨rfl, fun c member => absurd member List.not_mem_nil, fun kind => by simp at kind, rfl⟩
    · exact before token member
  | case2 read position c rest blank ih =>
    exact ih (fun d member => part d (List.mem_cons_of_mem _ member)) before scanned
  | case3 read position c rest other token extra lexeme ih =>
    refine ih (fun d member => part d (List.mem_cons_of_mem _ (List.mem_of_mem_drop member)))
      (fun t member => ?_) scanned
    rcases List.mem_cons.mp member with rfl | member
    · exact (scanLexeme_from lexeme).mono part
    · exact before t member
  | case4 read position c rest other error lexeme => simp at scanned

/-- The tokens of a text are spelled in its characters. -/
theorem scan_from {text : String} {tokens : List Token} (scanned : scan text = .ok tokens) :
    ∀ token ∈ tokens, token.From text.toList :=
  scanFrom_from (fun _ member => member) (fun _ member => absurd member List.not_mem_nil) scanned

end Stepwise.Token
