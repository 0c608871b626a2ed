import Stepwise.Proofs.Phrase.Scan

/-! The lexical grammar. Main statement: exactly the texts that are made of blanks and whole lexemes
are scanned. Their tokens are spelled, each at its position, as the text is without its blanks; of
any other text the error names the place of the first lexeme that is none. -/
namespace Stepwise

def LexicalError.position : LexicalError → Nat
  | invalidCharacter _ position | invalidNumber _ position | invalidIdentifier _ position => position

namespace Token

def keywords : List String := ["sin", "cos", "tan", "log", "sqrt", "diff"]

def symbols : List Char := ['=', '+', '-', '*', '/', '^', '(', ')']

/-- The characters of a token in its text, the mark of a factorial among them. -/
def spelling (token : Token) : List Char := token.text.toList ++ if token.kind = .factorial then ['!'] else []

/-- The characters are a lexeme in front of `rest`. A number takes all digits and points that stand
together, and a word all letters. -/
inductive IsLexeme : List Char → List Char → Prop
  | number {text rest : List Char} (numeral : IsNumeral text)
      (longest : ∀ c, rest.head? = some c → c.isDigit = false ∧ c ≠ '.' ∧ c ≠ '!') : IsLexeme text rest
  | factorial {text rest : List Char} (numeral : IsNumeral text) : IsLexeme (text ++ ['!']) rest
  | keyword {text rest : List Char} (known : String.ofList text ∈ keywords)
      (longest : ∀ c, rest.head? = some c → isLetter c = false) : IsLexeme text rest
  | letter {c : Char} {rest : List Char} (low : 'a' ≤ c) (high : c ≤ 'z')
      (longest : ∀ c, rest.head? = some c → isLetter c = false) : IsLexeme [c] rest
  | symbol {c : Char} {rest : List Char} (known : c ∈ symbols) : IsLexeme [c] rest

inductive Splits : List Char → List Char → Prop
  | done {rest : List Char} : Splits rest rest
  | blank {c : Char} {source rest : List Char} (isBlank : Text.isBlank c) (splits : Splits source rest) :
      Splits (c :: source) rest
  | lexeme {text source rest : List Char} (isLexeme : IsLexeme text source) (splits : Splits source rest) :
      Splits (text ++ source) rest

def Offends (rest : List Char) : Prop :=
  (∃ c, rest.head? = some c ∧ Text.isBlank c = false) ∧ ∀ text behind, rest = text ++ behind →
    ¬ IsLexeme text behind

variable {c : Char} {text rest source : List Char} {position : Nat}

theorem wordKind_keyword {word : String} (known : word ∈ keywords) :
    ∃ kind, wordKind? word = some kind ∧ ∃ c more, word.toList = c :: more ∧ (c :: more).all isLetter := by
  simp only [keywords, List.mem_cons, List.not_mem_nil, or_false] at known
  rcases known with rfl | rfl | rfl | rfl | rfl | rfl <;> exact ⟨_, rfl, _, _, rfl, by decide⟩

/-- A word that has a kind is a keyword or a small letter. -/
theorem known_wordKind {word : String} {kind : Kind} (found : wordKind? word = some kind) :
    kind ≠ .factorial ∧ (word ∈ keywords ∨ ∃ c, 'a' ≤ c ∧ c ≤ 'z' ∧ word.toList = [c]) := by
  unfold wordKind? at found
  split at found
  any_goals
    obtain rfl := Option.some.inj found
    exact ⟨by simp, .inl (by simp [keywords])⟩
  split at found
  · next c single =>
    split at found
    · next small =>
      obtain rfl := Option.some.inj found
      exact ⟨by simp, .inr ⟨c, small.1, small.2, single⟩⟩
    · cases found
  · cases found

theorem symbolKind_known (known : c ∈ symbols) :
    (∃ kind, symbolKind? c = some kind) ∧ isLetter c = false ∧ ¬ (c.isDigit ∨ c = '.') ∧
    Text.isBlank c = false := by
  simp only [symbols, List.mem_cons, List.not_mem_nil, or_false] at known
  rcases known with rfl | rfl | rfl | rfl | rfl | rfl | rfl | rfl <;> exact ⟨⟨_, rfl⟩, by decide⟩

theorem known_symbolKind {kind : Kind} (found : symbolKind? c = some kind) :
    kind ≠ .factorial ∧ c ∈ symbols := by
  unfold symbolKind? at found
  split at found
  any_goals
    obtain rfl := Option.some.inj found
    exact ⟨by simp, by decide⟩
  cases found

theorem not_blank_of_numeral (numeral : IsNumeral text) : ∀ c ∈ text, Text.isBlank c = false := by
  have digits {text : List Char} (all : ∀ c ∈ text, c.isDigit) (c : Char) (member : c ∈ text) :
      Text.isBlank c = false :=
    not_blank_of_digit (.inl (all c member))
  cases numeral with
  | whole _ all => exact digits all
  | point all _ allBehind =>
    exact List.forall_mem_append.mpr
      ⟨digits all, List.forall_mem_cons.mpr ⟨not_blank_of_digit (.inr rfl), digits allBehind⟩⟩

/-- No blank stands in a lexeme. -/
theorem IsLexeme.not_blank (isLexeme : IsLexeme text rest) : ∀ c ∈ text, Text.isBlank c = false := by
  cases isLexeme with
  | number numeral _ => exact not_blank_of_numeral numeral
  | factorial numeral =>
    exact List.forall_mem_append.mpr
      ⟨not_blank_of_numeral numeral, List.forall_mem_singleton.mpr rfl⟩
  | keyword known _ =>
    obtain ⟨_, _, c, more, letters, all⟩ := wordKind_keyword known
    rw [String.toList_ofList] at letters
    exact letters ▸ fun d member => not_blank_of_letter (List.all_eq_true.mp all d member)
  | letter low high _ =>
    simpa only [List.forall_mem_singleton] using not_blank_of_letter (by simp [isLetter, low, high])
  | symbol known => simpa only [List.forall_mem_singleton] using (symbolKind_known known).2.2.2

structure Scans (position : Nat) (source : List Char) (lexeme : Lexeme) : Prop where
  front : ∃ behind, source = lexeme.1.spelling ++ behind ∧ IsLexeme lexeme.1.spelling behind
  length : lexeme.2 + 1 = lexeme.1.spelling.length
  place : lexeme.1.position = some position

theorem numberLexeme_scans (position : Nat) (numeral : IsNumeral text)
    (stops : ∀ c, rest.head? = some c → c.isDigit = false ∧ c ≠ '.') :
    Scans position (text ++ rest) (numberLexeme position text rest) := by
  obtain ⟨c, more, rfl, _⟩ := numeral.first
  unfold numberLexeme
  split
  · next behind =>
    have spelled : (⟨.factorial, String.ofList (c :: more), some position⟩ : Token).spelling =
        c :: more ++ ['!'] := by
      simp [spelling]
    refine ⟨⟨behind, ?_, ?_⟩, ?_, rfl⟩
    · rw [spelled, List.append_assoc]
      rfl
    · rw [spelled]
      exact .factorial numeral
    · rw [spelled]
      simp
  · next other =>
    have spelled : (⟨.number, String.ofList (c :: more), some position⟩ : Token).spelling = c :: more := by
      simp [spelling]
    refine ⟨⟨rest, by rw [spelled], ?_⟩, by rw [spelled]; simp, rfl⟩
    rw [spelled]
    refine .number numeral fun d first => ⟨(stops d first).1, (stops d first).2, ?_⟩
    rintro rfl
    cases rest with
    | nil => cases first
    | cons d behind => exact other behind (by rw [Option.some.inj first])

theorem head_dropWhile {p : Char → Bool} (source : List Char) {c : Char}
    (first : (source.dropWhile p).head? = some c) :
    p c = false := by
  have here := List.head?_dropWhile_not p source
  rw [first] at here
  exact here

theorem scanNumber_scans {lexeme : Lexeme} (head : ∃ c rest, source = c :: rest ∧ (c.isDigit ∨ c = '.'))
    (scanned : scanNumber position source = .ok lexeme) : Scans position source lexeme := by
  have digits (source : List Char) (c : Char) (member : c ∈ source.takeWhile Char.isDigit) : c.isDigit :=
    mem_takeWhile_digit member
  have whole : source.takeWhile Char.isDigit ++ source.dropWhile Char.isDigit = source :=
    List.takeWhile_append_dropWhile
  unfold scanNumber at scanned
  dsimp only at scanned
  split at scanned
  · next more behind =>
    rw [behind] at whole
    split at scanned
    · cases scanned
    · next other =>
      split at scanned
      · cases scanned
      · next nonempty =>
        obtain rfl := Except.ok.inj scanned
        have stops (c : Char) (first : (more.dropWhile Char.isDigit).head? = some c) :
            c.isDigit = false ∧ c ≠ '.' := by
          refine ⟨head_dropWhile more first, ?_⟩
          rintro rfl
          cases left : more.dropWhile Char.isDigit with
          | nil => simp [left] at first
          | cons d after =>
            rw [left] at first
            exact other after (by rw [left, Option.some.inj first])
        have scans := numberLexeme_scans position (.point (digits source) nonempty (digits more)) stops
        rwa [List.append_assoc, List.cons_append, List.takeWhile_append_dropWhile, whole] at scans
  · next other =>
    obtain rfl := Except.ok.inj scanned
    have stops (c : Char) (first : (source.dropWhile Char.isDigit).head? = some c) :
        c.isDigit = false ∧ c ≠ '.' := by
      refine ⟨head_dropWhile source first, ?_⟩
      rintro rfl
      cases left : source.dropWhile Char.isDigit with
      | nil => simp [left] at first
      | cons d after =>
        rw [left] at first
        exact other after (by rw [left, Option.some.inj first])
    have nonempty : source.takeWhile Char.isDigit ≠ [] := by
      obtain ⟨c, tail, rfl, start⟩ := head
      rcases start with digit | rfl
      · simp [digit]
      · exact absurd rfl (other tail)
    have scans := numberLexeme_scans position (.whole nonempty (digits source)) stops
    rwa [whole] at scans

/-- Only lexemes are scanned. -/
theorem scanLexeme_scans {lexeme : Lexeme} (scanned : scanLexeme position c rest = .ok lexeme) :
    Scans position (c :: rest) lexeme := by
  unfold scanLexeme at scanned
  split at scanned
  · next start => exact scanNumber_scans ⟨c, rest, rfl, start⟩ scanned
  · split at scanned
    · next letter =>
      unfold scanWord at scanned
      dsimp only at scanned
      split at scanned
      · next kind found =>
        obtain rfl := Except.ok.inj scanned
        obtain ⟨other, known⟩ := known_wordKind found
        have spelled :
          (⟨kind, String.ofList ((c :: rest).takeWhile isLetter), some position⟩ : Token).spelling =
            (c :: rest).takeWhile isLetter := by simp [spelling, other]
        refine ⟨⟨(c :: rest).dropWhile isLetter, ?_, ?_⟩, ?_, rfl⟩
        · rw [spelled, List.takeWhile_append_dropWhile]
        · rw [spelled]
          have longest (d : Char) (first : ((c :: rest).dropWhile isLetter).head? = some d) :
              isLetter d = false :=
            head_dropWhile _ first
          rcases known with keyword | ⟨d, low, high, single⟩
          · exact .keyword keyword longest
          · rw [String.toList_ofList] at single
            rw [single]
            exact .letter low high longest
        · rw [spelled]
          simp [letter]
      · cases scanned
    · split at scanned
      · next kind found =>
        obtain rfl := Except.ok.inj scanned
        obtain ⟨other, known⟩ := known_symbolKind found
        have spelled : (⟨kind, c.toString, some position⟩ : Token).spelling = [c] := by
          simp [spelling, other, Char.toString]
        exact ⟨⟨rest, by rw [spelled]; rfl, by rw [spelled]; exact .symbol known⟩, by rw [spelled]; rfl, rfl⟩
      · cases scanned

/-- Every lexeme is scanned. -/
theorem scanLexeme_of_isLexeme (isLexeme : IsLexeme text rest) (position : Nat) :
    ∃ c more, text = c :: more ∧
      ∃ token, scanLexeme position c (more ++ rest) = .ok (token, more.length) := by
  cases isLexeme with
  | number numeral longest =>
    obtain ⟨c, more, rfl, start⟩ := numeral.first
    have scanned := scanNumber_numeral numeral position rest fun d first =>
      ⟨(longest d first).1, (longest d first).2.1⟩
    refine ⟨c, more, rfl, ⟨.number, String.ofList (c :: more), some position⟩, ?_⟩
    rw [scanLexeme, if_pos start]
    refine scanned.trans ?_
    unfold numberLexeme
    split
    · exact absurd rfl (longest '!' rfl).2.2
    · rfl
  | @factorial text _ numeral =>
    obtain ⟨c, more, rfl, start⟩ := numeral.first
    have scanned := scanNumber_numeral numeral position ('!' :: rest) (by simp)
    refine ⟨c, more ++ ['!'], rfl, ⟨.factorial, String.ofList (c :: more), some position⟩, ?_⟩
    rw [List.append_assoc, scanLexeme, if_pos start]
    refine scanned.trans ?_
    simp [numberLexeme]
  | keyword known longest =>
    obtain ⟨kind, found, c, more, letters, all⟩ := wordKind_keyword known
    exact ⟨c, more, by rw [← letters, String.toList_ofList], _,
      scanLexeme_word letters all found position longest⟩
  | @letter c _ low high longest =>
    have single : (String.ofList [c]).toList = [c] := String.toList_ofList
    have all : [c].all isLetter := by simp [isLetter, low, high]
    exact ⟨c, [], rfl, _, scanLexeme_word single all (wordKind_letter low high single) position longest⟩
  | @symbol c _ known =>
    obtain ⟨⟨kind, found⟩, letter, number, _⟩ := symbolKind_known known
    refine ⟨c, [], rfl, ⟨kind, c.toString, some position⟩, ?_⟩
    simp [scanLexeme, number, letter, found]

theorem scanNumber_error {error : LexicalError} (failed : scanNumber position source = .error error) :
    error.position = position := by
  unfold scanNumber at failed
  dsimp only at failed
  split at failed
  · split at failed
    · obtain rfl := Except.error.inj failed
      rfl
    · split at failed
      · obtain rfl := Except.error.inj failed
        rfl
      · cases failed
  · cases failed

/-- A failure stands where no lexeme does. -/
theorem scanLexeme_error {error : LexicalError} (failed : scanLexeme position c rest = .error error) :
    error.position = position ∧ ∀ text behind, c :: rest = text ++ behind → ¬ IsLexeme text behind := by
  constructor
  · unfold scanLexeme at failed
    split at failed
    · exact scanNumber_error failed
    · split at failed
      · unfold scanWord at failed
        dsimp only at failed
        split at failed
        · cases failed
        · obtain rfl := Except.error.inj failed
          rfl
      · split at failed
        · cases failed
        · obtain rfl := Except.error.inj failed
          rfl
  · intro text behind same isLexeme
    obtain ⟨d, more, rfl, token, scanned⟩ := scanLexeme_of_isLexeme isLexeme position
    obtain ⟨rfl, rfl⟩ := List.cons.inj (same.trans (List.cons_append ..))
    rw [scanned] at failed
    cases failed

/-- The tokens of a text that starts at `position`: each is spelled where it stands, and between
them there are blanks. -/
inductive Stands : Nat → List Char → List Token → Prop
  | done {position : Nat} : Stands position [] []
  | blank {position : Nat} {c : Char} {source : List Char} {tokens : List Token} (isBlank : Text.isBlank c)
      (stands : Stands (position + 1) source tokens) : Stands position (c :: source) tokens
  | token {position : Nat} {source : List Char} {token : Token} {tokens : List Token}
      (place : token.position = some position)
      (isLexeme : IsLexeme token.spelling source)
      (stands : Stands (position + token.spelling.length) source tokens) :
      Stands position (token.spelling ++ source) (token :: tokens)

namespace Stands

variable {tokens : List Token}

theorem splits (stands : Stands position source tokens) : Splits source [] := by
  induction stands with
  | done => exact .done
  | blank isBlank _ ih => exact .blank isBlank ih
  | token _ isLexeme _ ih => exact .lexeme isLexeme ih

/-- Without its blanks the text is the tokens one behind the other. -/
theorem flatMap_spelling (stands : Stands position source tokens) :
    tokens.flatMap spelling = source.filter fun c => !Text.isBlank c := by
  induction stands with
  | done => rfl
  | blank isBlank _ ih => rw [ih, List.filter_cons_of_neg (by simp [isBlank])]
  | @token _ _ token _ _ isLexeme _ ih =>
    have whole : (token.spelling.filter fun c => !Text.isBlank c) = token.spelling :=
      List.filter_eq_self.mpr fun c member => by rw [isLexeme.not_blank c member, Bool.not_false]
    rw [List.flatMap_cons, ih, List.filter_append, whole]

theorem places (stands : Stands position source tokens) :
    ∀ token ∈ tokens, ∃ distance, token.position = some (position + distance) ∧
      token.spelling <+: source.drop distance := by
  induction stands with
  | done => simp
  | blank _ _ ih =>
    intro token member
    obtain ⟨distance, place, front⟩ := ih token member
    exact ⟨distance + 1, by rw [place, Nat.add_assoc, Nat.add_comm 1], front⟩
  | @token position source first tokens place _ _ ih =>
    refine List.forall_mem_cons.mpr ⟨⟨0, place, List.prefix_append ..⟩, fun token member => ?_⟩
    obtain ⟨distance, place, front⟩ := ih token member
    exact ⟨first.spelling.length + distance, by rw [place, Nat.add_assoc],
      by rwa [List.drop_length_add_append]⟩

/-- No token begins before those in front of it end. -/
theorem pairwise (stands : Stands position source tokens) :
    tokens.Pairwise fun first second =>
      first.position.getD 0 + first.spelling.length ≤ second.position.getD 0 := by
  induction stands with
  | done => exact .nil
  | blank _ _ ih => exact ih
  | token place _ stands ih =>
    refine .cons (fun second member => ?_) ih
    obtain ⟨distance, place', _⟩ := stands.places second member
    rw [place, place']
    exact Nat.le_add_right ..

end Stands

theorem scanFrom_stands {read tokens : List Token} (scanned : scanFrom read position source = .ok tokens) :
    ∃ later, tokens = read.reverse ++ later ++ [⟨.finish, "", some (position + source.length)⟩] ∧
      Stands position source later := by
  fun_induction scanFrom read position source with
  | case1 read position =>
    obtain rfl := Except.ok.inj scanned
    exact ⟨[], by simp, .done⟩
  | case2 read position c rest isBlank ih =>
    obtain ⟨later, rfl, stands⟩ := ih scanned
    exact ⟨later, by simp [Nat.add_assoc, Nat.add_comm 1], .blank isBlank stands⟩
  | case3 read position c rest isBlank token extra lexeme ih =>
    obtain ⟨⟨behind, front, isLexeme⟩, length, place⟩ := scanLexeme_scans lexeme
    dsimp only at front isLexeme length place
    have left : rest.drop extra = behind := by
      rw [← List.drop_succ_cons (a := c), front, length, List.drop_left]
    have width : position + 1 + extra = position + token.spelling.length := by omega
    rw [left, width] at ih scanned
    obtain ⟨later, rfl, stands⟩ := ih scanned
    rw [front]
    exact ⟨token :: later, by simp [Nat.add_assoc], .token place isLexeme stands⟩
  | case4 read position c rest isBlank error lexeme => cases scanned

theorem scanFrom_offends {read : List Token} {error : LexicalError}
    (failed : scanFrom read position source = .error error) :
    ∃ rest, Splits source rest ∧ Offends rest := by
  fun_induction scanFrom read position source with
  | case1 read position => cases failed
  | case2 read position c rest isBlank ih =>
    obtain ⟨left, splits, offends⟩ := ih failed
    exact ⟨left, .blank isBlank splits, offends⟩
  | case3 read position c rest isBlank token extra lexeme ih =>
    obtain ⟨⟨behind, front, isLexeme⟩, length, _⟩ := scanLexeme_scans lexeme
    dsimp only at front isLexeme length
    have behindIs : rest.drop extra = behind := by
      rw [← List.drop_succ_cons (a := c), front, length, List.drop_left]
    rw [behindIs] at ih failed
    obtain ⟨left, splits, offends⟩ := ih failed
    rw [front]
    exact ⟨left, .lexeme isLexeme splits, offends⟩
  | case4 read position c rest isBlank error' lexeme =>
    obtain rfl := Except.error.inj failed
    exact ⟨c :: rest, .done, ⟨c, rfl, by simpa using isBlank⟩, (scanLexeme_error lexeme).2⟩

/-- Over blanks and lexemes the scan goes on to what stands behind them. -/
theorem Splits.scanFrom_eq (splits : Splits source rest) (read : List Token) (position : Nat) :
    ∃ read' position', scanFrom read position source = scanFrom read' position' rest ∧
      position' + rest.length = position + source.length := by
  induction splits generalizing read position with
  | done => exact ⟨read, position, rfl, rfl⟩
  | blank isBlank _ ih =>
    rw [scanFrom, if_pos isBlank]
    obtain ⟨read', position', same, place⟩ := ih read (position + 1)
    exact ⟨read', position', same, by rw [place, List.length_cons]; omega⟩
  | @lexeme _ source _ isLexeme _ ih =>
    obtain ⟨c, more, rfl, token, scanned⟩ := scanLexeme_of_isLexeme isLexeme position
    rw [List.cons_append, scanFrom_lexeme (isLexeme.not_blank c (List.mem_cons_self ..)) scanned rfl]
    obtain ⟨read', position', same, place⟩ := ih (token :: read) (position + (c :: more).length)
    exact ⟨read', position', same, by rw [place, ← List.cons_append, List.length_append, Nat.add_assoc]⟩

theorem Offends.scanFrom_error (offends : Offends rest) (read : List Token) (position : Nat) :
    ∃ error, scanFrom read position rest = .error error ∧ error.position = position := by
  obtain ⟨⟨c, first, notBlank⟩, none⟩ := offends
  cases rest with
  | nil => cases first
  | cons d more =>
    obtain rfl := Option.some.inj first
    rw [scanFrom, if_neg (by simp [notBlank])]
    cases lexeme : scanLexeme position d more with
    | error error => exact ⟨error, rfl, (scanLexeme_error lexeme).1⟩
    | ok lexeme' =>
      obtain ⟨⟨behind, front, isLexeme⟩, _, _⟩ := scanLexeme_scans lexeme
      exact absurd isLexeme (none _ behind front)

/-- Scanning takes exactly the texts that are made of blanks and lexemes. The tokens, which the end
of the text follows, are spelled as their kinds ask for and make up the text without its blanks,
each at its position. A failure names the one place where, behind blanks and lexemes, neither
stands. -/
theorem scan_lexical (text : String) :
    ((∃ tokens, scan text = .ok tokens) ↔ Splits text.toList []) ∧
    (∀ tokens, scan text = .ok tokens → ∃ read, tokens = read ++ [⟨.finish, "", some text.length⟩] ∧
      read.flatMap spelling = (text.toList.filter fun c => !Text.isBlank c) ∧
      (∀ token ∈ read, token.Spelled ∧
        ∃ position, token.position = some position ∧ token.spelling <+: text.toList.drop position) ∧
      read.Pairwise fun first second =>
      first.position.getD 0 + first.spelling.length ≤ second.position.getD 0) ∧
    ∀ error, scan text = .error error →
      (∃ rest, Splits text.toList rest ∧ Offends rest) ∧
      ∀ rest, Splits text.toList rest → Offends rest → error.position + rest.length = text.length := by
  refine ⟨⟨?_, fun splits => ?_⟩, fun tokens scanned => ?_, fun error failed => ⟨scanFrom_offends failed, ?_⟩⟩
  · rintro ⟨tokens, scanned⟩
    obtain ⟨_, _, stands⟩ := scanFrom_stands scanned
    exact stands.splits
  · obtain ⟨read, position, scanned, _⟩ := splits.scanFrom_eq [] 0
    exact ⟨_, scanned.trans (by rw [scanFrom])⟩
  · have spelled := scan_from scanned
    obtain ⟨read, rfl, stands⟩ := scanFrom_stands scanned
    refine ⟨read, by simp [String.length_toList], stands.flatMap_spelling, fun token member =>
      ⟨?_, ?_⟩, stands.pairwise⟩
    · exact (spelled token (by simp [member])).spelled
    · simpa using stands.places token member
  · intro rest splits offends
    obtain ⟨read, position, scanned, place⟩ := splits.scanFrom_eq [] 0
    obtain ⟨error', failed', here⟩ := offends.scanFrom_error read position
    obtain rfl := Except.error.inj (failed.symm.trans (scanned.trans failed'))
    rw [here, place, Nat.zero_add, String.length_toList]

end Token

end Stepwise
