import Stepwise.Proofs.Phrase.Basic

/-! Scanning a phrase. Main statement: the characters of a phrase split into its tokens. -/
namespace Stepwise

namespace Token

/-- No token goes on with the first of these characters. -/
def Apart (rest : List Char) : Prop :=
  ∀ c, rest.head? = some c → c.isDigit = false ∧ c ≠ '.' ∧ c ≠ '!' ∧ isLetter c = false

theorem apart_cons {c : Char} {rest : List Char}
    (apart : c.isDigit = false ∧ c ≠ '.' ∧ c ≠ '!' ∧ isLetter c = false) : Apart (c :: rest) := by
  intro d first
  obtain rfl := Option.some.inj first
  exact apart

theorem apart_symbol (kind : Kind) (rest : List Char) : Apart (kind.symbol :: rest) := by
  refine apart_cons ?_
  cases kind <;> simp [Kind.symbol, isLetter]

theorem Apart.letter {rest : List Char} (apart : Apart rest) (c : Char) (first : rest.head? = some c) :
    isLetter c = false := (apart c first).2.2.2

theorem apart_nil : Apart [] := by
  intro c first
  cases first

/-- A lexeme is taken off the front. -/
theorem scanFrom_lexeme {read : List Token} {position extra : Nat}
    {c : Char} {lexeme rest : List Char} {token : Token} (blank : Text.isBlank c = false)
    (scanned : scanLexeme position c (lexeme ++ rest) = .ok (token, extra))
    (length : extra = lexeme.length) :
    scanFrom read position (c :: (lexeme ++ rest)) =
      scanFrom (token :: read) (position + (c :: lexeme).length) rest := by
  subst length
  rw [scanFrom]
  simp only [blank, Bool.false_eq_true, if_false, scanned, List.drop_left, List.length_cons]
  rw [Nat.add_assoc, Nat.add_comm 1]

theorem scanFrom_blank (read : List Token) (position : Nat) (rest : List Char) :
    scanFrom read position (' ' :: rest) = scanFrom read (position + 1) rest := by
  have blank : Text.isBlank ' ' = true := rfl
  rw [scanFrom]
  simp only [blank, if_true]

/-- Blanks are left out. -/
theorem scanFrom_blanks {blanks : List Char} (blank : ∀ c ∈ blanks, Text.isBlank c)
    (read : List Token) (position : Nat) (rest : List Char) :
    scanFrom read position (blanks ++ rest) = scanFrom read (position + blanks.length) rest := by
  induction blanks generalizing position with
  | nil => rfl
  | cons c blanks ih =>
    rw [List.cons_append, scanFrom, if_pos (blank c (List.mem_cons_self ..)),
      ih (fun d member => blank d (List.mem_cons_of_mem _ member)), List.length_cons,
      Nat.add_right_comm, Nat.add_assoc]

def Kind.IsSymbol (kind : Kind) : Prop := kind.rank?.isSome ∨ kind = opening ∨ kind = closing

theorem scanFrom_symbol {kind : Kind} (isSymbol : kind.IsSymbol) (read : List Token)
    (position : Nat) (rest : List Char) :
    scanFrom read position (kind.symbol :: rest) =
      scanFrom (symbol kind position :: read) (position + 1) rest := by
  have scanned : scanLexeme position kind.symbol ([] ++ rest) = .ok (symbol kind position, 0) := by
    unfold Kind.IsSymbol at isSymbol
    cases kind <;> first | rfl | simp [Kind.rank?] at isSymbol
  have blank : Text.isBlank kind.symbol = false := by
    unfold Kind.IsSymbol at isSymbol
    cases kind <;> first | rfl | simp [Kind.rank?] at isSymbol
  exact scanFrom_lexeme blank scanned rfl

theorem takeWhile_digits {digits : List Char} (all : ∀ c ∈ digits, c.isDigit) (rest : List Char)
    (stops : ∀ c, rest.head? = some c → c.isDigit = false) :
    (digits ++ rest).takeWhile Char.isDigit = digits ∧ (digits ++ rest).dropWhile Char.isDigit = rest := by
  rw [List.takeWhile_append_of_pos all, List.dropWhile_append_of_pos all]
  cases rest with
  | nil => simp
  | cons c rest => simp [stops c rfl]

/-- A numeral is scanned up to its end. -/
theorem scanNumber_numeral {text : List Char} (numeral : IsNumeral text) (position : Nat) (rest : List Char)
    (stops : ∀ c, rest.head? = some c → c.isDigit = false ∧ c ≠ '.') :
    scanNumber position (text ++ rest) = .ok (numberLexeme position text rest) := by
  have digit (c : Char) (first : rest.head? = some c) : c.isDigit = false := (stops c first).1
  cases numeral with
  | whole nonempty all =>
    obtain ⟨taken, left⟩ := takeWhile_digits all rest digit
    rw [scanNumber]
    simp only [taken, left]
    split
    · next more => exact absurd rfl (stops '.' rfl).2
    · rfl
  | @point digits fraction all nonempty allBehind =>
    rw [List.append_assoc, List.cons_append]
    obtain ⟨taken, left⟩ := takeWhile_digits all ('.' :: (fraction ++ rest)) (by
      intro c first
      obtain rfl := Option.some.inj first
      rfl)
    obtain ⟨taken', left'⟩ := takeWhile_digits allBehind rest digit
    rw [scanNumber]
    simp only [taken, left, taken', left', nonempty, if_false]
    split
    · next more => exact absurd rfl (stops '.' rfl).2
    · rfl

/-- A numeral starts with a digit or with a point. -/
theorem not_blank_of_digit {c : Char} (first : c.isDigit ∨ c = '.') : Text.isBlank c = false := by
  rcases first with digit | rfl
  · simp [Char.isDigit, UInt32.le_iff_toNat_le] at digit
    obtain ⟨low, high⟩ := digit
    have low : 48 ≤ c.toNat := low
    have high : c.toNat ≤ 57 := high
    simp [Text.isBlank]
    omega
  · rfl

/-- A number ends where its numeral could not go on. -/
theorem scanFrom_numeral {digits : String}
    (numeral : IsNumeral digits.toList) (read : List Token) (position : Nat) {rest : List Char}
    (ends : ∀ c, rest.head? = some c → c.isDigit = false ∧ c ≠ '.' ∧ c ≠ '!') :
    scanFrom read position (digits.toList ++ rest) =
      scanFrom (⟨.number, digits, some position⟩ :: read) (position + digits.toList.length) rest := by
  obtain ⟨c, more, headed, start⟩ := numeral.first
  have scanned :=
    scanNumber_numeral numeral position rest fun c first => ⟨(ends c first).1, (ends c first).2.1⟩
  have lexeme : numberLexeme position digits.toList rest =
      (⟨.number, digits, some position⟩, more.length) := by
    unfold numberLexeme
    split
    · exact absurd rfl (ends '!' rfl).2.2
    · rw [String.ofList_toList, headed]
      rfl
  rw [lexeme, headed, List.cons_append] at scanned
  rw [headed, List.cons_append]
  refine scanFrom_lexeme (not_blank_of_digit start) ?_ rfl
  rw [scanLexeme, if_pos start, scanned]

theorem scanFrom_number {digits : String} (numeral : IsNumeral digits.toList) (read : List Token)
    (position : Nat) {rest : List Char} (apart : Apart rest) :
    scanFrom read position (digits.toList ++ rest) =
      scanFrom (⟨.number, digits, some position⟩ :: read) (position + digits.toList.length) rest :=
  scanFrom_numeral numeral read position fun c first =>
    ⟨(apart c first).1, (apart c first).2.1, (apart c first).2.2.1⟩

theorem scanFrom_factorial {digits : String} (numeral : IsNumeral digits.toList) (read : List Token)
    (position : Nat) (rest : List Char) :
    scanFrom read position (digits.toList ++ '!' :: rest) =
      scanFrom (⟨.factorial, digits, some position⟩ :: read) (position + digits.toList.length + 1) rest := by
  obtain ⟨c, more, headed, start⟩ := numeral.first
  have scanned := scanNumber_numeral numeral position ('!' :: rest) fun c first => by
    obtain rfl := Option.some.inj first
    decide
  have lexeme : numberLexeme position digits.toList ('!' :: rest) =
      (⟨.factorial, digits, some position⟩, (more ++ ['!']).length) := by
    rw [numberLexeme, String.ofList_toList, headed, List.length_append]
    rfl
  rw [lexeme, headed, List.cons_append, List.append_cons] at scanned
  rw [headed, List.cons_append, List.append_cons]
  have scanned : scanLexeme position c (more ++ ['!'] ++ rest) =
      .ok (⟨.factorial, digits, some position⟩, (more ++ ['!']).length) := by
    rw [scanLexeme, if_pos start, scanned]
  have length : position + (c :: more).length + 1 = position + (c :: (more ++ ['!'])).length := by
    simp [Nat.add_assoc]
  rw [length]
  exact scanFrom_lexeme (not_blank_of_digit start) scanned rfl

theorem letter_bounds {c : Char} (letter : isLetter c) : 65 ≤ c.toNat ∧ c.toNat ≤ 122 := by
  simp only [isLetter, Bool.or_eq_true, Bool.and_eq_true, decide_eq_true_eq] at letter
  rcases letter with ⟨low, high⟩ | ⟨low, high⟩
  · have low : 97 ≤ c.toNat := low
    have high : c.toNat ≤ 122 := high
    omega
  · have low : 65 ≤ c.toNat := low
    have high : c.toNat ≤ 90 := high
    omega

theorem not_blank_of_letter {c : Char} (letter : isLetter c) : Text.isBlank c = false := by
  obtain ⟨low, high⟩ := letter_bounds letter
  simp [Text.isBlank]
  omega

theorem not_digit_of_letter {c : Char} (letter : isLetter c) : ¬ (c.isDigit ∨ c = '.') := by
  obtain ⟨low, high⟩ := letter_bounds letter
  rintro (digit | rfl)
  · simp [Char.isDigit, UInt32.le_iff_toNat_le] at digit
    have : c.toNat ≤ 57 := digit.2
    omega
  · simp at low

theorem scanLexeme_word {kind : Kind} {word : String} {c : Char}
    {more : List Char} (letters : word.toList = c :: more) (allLetters : (c :: more).all isLetter)
    (found : wordKind? word = some kind) (position : Nat) {rest : List Char}
    (stops : ∀ d, rest.head? = some d → isLetter d = false) :
    scanLexeme position c (more ++ rest) = .ok (⟨kind, word, some position⟩, more.length) := by
  have all := List.all_eq_true.mp allLetters
  have taken : (c :: (more ++ rest)).takeWhile isLetter = c :: more := by
    rw [← List.cons_append, List.takeWhile_append_of_pos all]
    cases rest with
    | nil => simp
    | cons d rest => simp [stops d rfl]
  have letter := all c (List.mem_cons_self ..)
  have number : ¬ (c.isDigit ∨ c = '.') := not_digit_of_letter letter
  rw [scanLexeme, if_neg number, if_pos letter, scanWord, taken, ← letters, String.ofList_toList]
  simp [found, letters]

/-- A word of letters is scanned up to its end. -/
theorem scanFrom_word {kind : Kind} {word : String} {c : Char}
    {more : List Char} (letters : word.toList = c :: more) (allLetters : (c :: more).all isLetter)
    (found : wordKind? word = some kind) (read : List Token) (position : Nat) {rest : List Char}
    (stops : ∀ d, rest.head? = some d → isLetter d = false) :
    scanFrom read position (word.toList ++ rest) =
      scanFrom (⟨kind, word, some position⟩ :: read) (position + word.toList.length) rest := by
  have blank : Text.isBlank c = false :=
    not_blank_of_letter (List.all_eq_true.mp allLetters c (List.mem_cons_self ..))
  rw [letters, List.cons_append]
  exact scanFrom_lexeme blank (scanLexeme_word letters allLetters found position stops) rfl

theorem wordKind_letter {name : String} {c : Char} (low : 'a' ≤ c) (high : c ≤ 'z')
    (single : name.toList = [c]) :
    wordKind? name = some .letter := by
  unfold wordKind?
  split
  any_goals simp at single
  simp [single, low, high]

/-- A letter that names a variable. -/
theorem scanFrom_letter {name : String} (small : ∃ c, 'a' ≤ c ∧ c ≤ 'z' ∧ name.toList = [c])
    (read : List Token) (position : Nat) {rest : List Char}
    (stops : ∀ d, rest.head? = some d → isLetter d = false) :
    scanFrom read position (name.toList ++ rest) =
      scanFrom (⟨.letter, name, some position⟩ :: read) (position + name.toList.length) rest := by
  obtain ⟨c, low, high, single⟩ := small
  have letter : isLetter c := by simp [isLetter, low, high]
  exact scanFrom_word single (by simpa using letter) (wordKind_letter low high single) read position stops

/-- A keyword is followed by a bracket. -/
theorem scanFrom_keyword {kind : Kind} {keyword : String} (call : kind.IsCall)
    (spelled : Spelled ⟨kind, keyword, none⟩) (read : List Token) (position : Nat)
    (rest : List Char) :
    scanFrom read position (keyword.toList ++ '(' :: rest) =
      scanFrom (⟨kind, keyword, some position⟩ :: read) (position + keyword.toList.length) ('(' :: rest) := by
  have stops (d : Char) (first : ('(' :: rest).head? = some d) : isLetter d = false := by
    obtain rfl := Option.some.inj first
    rfl
  unfold Spelled at spelled
  rcases call with rfl | rfl | rfl | rfl
  · rcases spelled with h | h | h <;> obtain rfl := h
    · exact scanFrom_word (show "sin".toList = ['s', 'i', 'n'] from rfl) rfl rfl read position stops
    · exact scanFrom_word (show "cos".toList = ['c', 'o', 's'] from rfl) rfl rfl read position stops
    · exact scanFrom_word (show "tan".toList = ['t', 'a', 'n'] from rfl) rfl rfl read position stops
  · obtain rfl := spelled
    exact scanFrom_word (show "log".toList = ['l', 'o', 'g'] from rfl) rfl rfl read position stops
  · obtain rfl := spelled
    exact scanFrom_word (show "sqrt".toList = ['s', 'q', 'r', 't'] from rfl) rfl rfl read position stops
  · obtain rfl := spelled
    exact scanFrom_word (show "diff".toList = ['d', 'i', 'f', 'f'] from rfl) rfl rfl read position stops

end Token

namespace Phrase

open Token

theorem length_letter {name : String} (small : ∃ c, 'a' ≤ c ∧ c ≤ 'z' ∧ name.toList = [c]) :
    name.toList.length = 1 := by
  obtain ⟨c, _, _, single⟩ := small
  rw [single]
  rfl

theorem scanFrom_gap (kind : Token.Kind) (read : List Token) (position : Nat) (rest : List Char) :
    scanFrom read position (gap kind ++ rest) = scanFrom read (position + (gap kind).length) rest := by
  unfold gap
  split
  · exact scanFrom_blank read position rest
  · rfl

/-- Scanning goes on behind the tokens of a phrase. -/
theorem scanFrom_chars {p : Phrase} (written : p.Spelled) (read : List Token) (position : Nat)
    {rest : List Char} (apart : Apart rest) :
    scanFrom read position (p.chars ++ rest) =
      scanFrom ((p.tokens position).reverse ++ read) (position + p.width) rest := by
  induction p generalizing read position rest with
  | number digits => exact scanFrom_number written read position apart
  | factorial digits =>
    rw [chars, List.append_assoc, List.singleton_append, scanFrom_factorial written]
    simp [tokens, width, chars, Nat.add_assoc]
  | letter name => exact scanFrom_letter written read position apart.letter
  | power name digits =>
    obtain ⟨small, numeral⟩ := written
    have shape : (power name digits).chars ++ rest = name.toList ++ Kind.power.symbol ::
        (digits.toList ++ rest) := by
      simp [chars, Kind.symbol]
    rw [shape, scanFrom_letter small _ _ (apart_symbol .power _).letter, scanFrom_symbol (.inl rfl),
      scanFrom_number numeral _ _ apart, length_letter small]
    have total : position + (power name digits).width = position + 1 + 1 + digits.toList.length := by
      simp only [width, chars, List.length_append, List.length_cons, length_letter small]
      omega
    rw [total]
    rfl
  | raised name exponent ih =>
    obtain ⟨small, inner⟩ := written
    have shape : (raised name exponent).chars ++ rest = name.toList ++ Kind.power.symbol ::
      Kind.opening.symbol ::
        (exponent.chars ++ Kind.closing.symbol :: rest) := by simp [chars, Kind.symbol]
    rw [shape, scanFrom_letter small _ _ (apart_symbol .power _).letter, scanFrom_symbol (.inl rfl),
      scanFrom_symbol (.inr (.inl rfl)), ih inner _ _ (apart_symbol .closing rest),
      scanFrom_symbol (.inr (.inr rfl)),
      length_letter small]
    have total : position + (raised name exponent).width = position + 1 + 1 + 1 + exponent.width + 1 := by
      simp only [width, chars, List.length_append, List.length_cons, List.length_nil, length_letter small]
      omega
    rw [total]
    simp [tokens, Nat.add_assoc]
  | call kind keyword argument ih =>
    obtain ⟨call, spelled, inner⟩ := written
    have shape : (Phrase.call kind keyword argument).chars ++ rest = keyword.toList ++ Kind.opening.symbol ::
        (argument.chars ++ Kind.closing.symbol :: rest) := by simp [chars, Kind.symbol]
    have keywordEnds :=
      scanFrom_keyword call spelled read position (argument.chars ++ Kind.closing.symbol :: rest)
    rw [shape]
    refine keywordEnds.trans ?_
    rw [show '(' = Kind.opening.symbol from rfl, scanFrom_symbol (.inr (.inl rfl)),
      ih inner _ _ (apart_symbol .closing rest), scanFrom_symbol (.inr (.inr rfl))]
    have total : position + (Phrase.call kind keyword argument).width =
        position + keyword.toList.length + 1 + argument.width + 1 := by
      simp only [width, chars, List.length_append, List.length_cons, List.length_nil]
      omega
    rw [total]
    simp [tokens]
  | bracket inner ih =>
    have shape : (bracket inner).chars ++ rest =
        Kind.opening.symbol :: (inner.chars ++ Kind.closing.symbol :: rest) := by
      simp [chars, Kind.symbol]
    rw [shape, scanFrom_symbol (.inr (.inl rfl)), ih written _ _ (apart_symbol .closing rest),
      scanFrom_symbol (.inr (.inr rfl))]
    simp [tokens, width, chars, Nat.add_assoc, Nat.add_comm 1]
  | sign kind operand ih =>
    obtain ⟨sign, inner⟩ := written
    have isSymbol : kind.IsSymbol := .inl (by rcases sign with rfl | rfl <;> rfl)
    rw [chars, List.cons_append, scanFrom_symbol isSymbol, ih inner _ _ apart]
    simp [tokens, width, chars, Nat.add_assoc, Nat.add_comm 1]
  | operator kind left right ihl ihr =>
    obtain ⟨rank, l, r⟩ := written
    have shape : (operator kind left right).chars ++ rest =
        left.chars ++ (gap kind ++ kind.symbol :: (gap kind ++ (right.chars ++ rest))) := by simp [chars]
    have behind : Apart (gap kind ++ kind.symbol :: (gap kind ++ (right.chars ++ rest))) := by
      unfold gap
      split
      · exact apart_cons (by decide)
      · exact apart_symbol kind _
    rw [shape, ihl l _ _ behind, scanFrom_gap, scanFrom_symbol (.inl rank), scanFrom_gap, ihr r _ _ apart]
    have total : position + (operator kind left right).width =
        position + left.width + (gap kind).length + 1 + (gap kind).length + right.width := by
      simp only [width, chars, List.length_append, List.length_cons]
      omega
    rw [total]
    simp [tokens]

/-- The characters of a phrase split into its tokens. -/
theorem scan_chars {p : Phrase} (written : p.Spelled) :
    scan (String.ofList p.chars) = .ok (p.tokens 0 ++ [⟨.finish, "", some p.width⟩]) := by
  have whole := scanFrom_chars written [] 0 apart_nil
  rw [List.append_nil, List.append_nil] at whole
  rw [scan, String.toList_ofList, whole, scanFrom]
  simp

end Phrase

end Stepwise
