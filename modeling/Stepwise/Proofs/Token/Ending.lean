import Stepwise.Proofs.Token.Grouping

/-! The end of a text among its tokens. Main statement: the tokens that an expression is built from
end with the end of the text, which is nowhere else among them. -/
namespace Stepwise.Token

inductive Ended : List Token → Prop
  | finish {token : Token} (kind : token.kind = .finish) : Ended [token]
  | cons {token : Token} {rest : List Token} (kind : token.kind ≠ .finish) (ended : Ended rest) :
      Ended (token :: rest)

theorem Ended.append {before rest : List Token} (kinds : ∀ token ∈ before, token.kind ≠ .finish)
    (ended : Ended rest) :
    Ended (before ++ rest) := by
  induction before with
  | nil => exact ended
  | cons token before ih =>
    obtain ⟨kind, kinds⟩ := List.forall_mem_cons.mp kinds
    exact .cons kind (ih kinds)

theorem Ended.behind {token : Token} {rest : List Token} (ended : Ended (token :: rest))
    (kind : token.kind ≠ .finish) :
    Ended rest := by
  cases ended with
  | finish finish => exact absurd finish kind
  | cons _ ended => exact ended

theorem Ended.last {token : Token} {rest : List Token} (ended : Ended (token :: rest))
    (kind : token.kind = .finish) :
    rest = [] := by
  cases ended with
  | finish _ => rfl
  | cons other _ => exact absurd kind other

theorem numberLexeme_kind (position : Nat) (text rest : List Char) :
    (numberLexeme position text rest).1.kind ≠ .finish := by
  unfold numberLexeme
  split <;> simp

theorem scanNumber_kind {position : Nat} {source : List Char} {lexeme : Lexeme}
    (scanned : scanNumber position source = .ok lexeme) : lexeme.1.kind ≠ .finish := by
  unfold scanNumber at scanned
  simp only at scanned
  split at scanned
  · split at scanned
    · simp at scanned
    · split at scanned
      · simp at scanned
      · obtain rfl := Except.ok.inj scanned
        exact numberLexeme_kind _ _ _
  · obtain rfl := Except.ok.inj scanned
    exact numberLexeme_kind _ _ _

theorem wordKind_ne_finish {word : String} {kind : Kind} (found : wordKind? word = some kind) :
    kind ≠ .finish := by
  unfold wordKind? at found
  split at found
  any_goals
    obtain rfl := Option.some.inj found
    decide
  split at found
  · split at found
    · obtain rfl := Option.some.inj found
      decide
    · cases found
  · cases found

theorem symbolKind_ne_finish {c : Char} {kind : Kind} (found : symbolKind? c = some kind) :
    kind ≠ .finish := by
  unfold symbolKind? at found
  split at found
  any_goals
    obtain rfl := Option.some.inj found
    decide
  cases found

/-- What starts with a character is not the end of the text. -/
theorem scanLexeme_kind {position : Nat} {c : Char} {rest : List Char} {lexeme : Lexeme}
    (scanned : scanLexeme position c rest = .ok lexeme) : lexeme.1.kind ≠ .finish := by
  unfold scanLexeme at scanned
  split at scanned
  · exact scanNumber_kind scanned
  · split at scanned
    · unfold scanWord at scanned
      simp only at scanned
      split at scanned
      · next kind found =>
        obtain rfl := Except.ok.inj scanned
        exact wordKind_ne_finish found
      · cases scanned
    · split at scanned
      · next kind found =>
        obtain rfl := Except.ok.inj scanned
        exact symbolKind_ne_finish found
      · cases scanned

theorem scanFrom_ended {read tokens : List Token} {position : Nat} {source : List Char}
    (before : ∀ token ∈ read, token.kind ≠ .finish) (scanned : scanFrom read position source = .ok tokens) :
    Ended tokens := by
  fun_induction scanFrom read position source with
  | case1 read position =>
    obtain rfl := Except.ok.inj scanned
    rw [List.reverse_cons]
    exact .append (fun token member => before token (List.mem_reverse.mp member)) (.finish rfl)
  | case2 read position c rest blank ih => exact ih before scanned
  | case3 read position c rest other token extra lexeme ih =>
    exact ih (List.forall_mem_cons.mpr ⟨scanLexeme_kind lexeme, before⟩) scanned
  | case4 read position c rest other error lexeme => cases scanned

/-- The exponent of a letter ends before the end of the text. -/
theorem takenExponent_ended (depth : Nat) (waiting : List Nat) {rest : List Token} (ended : Ended rest) :
    (∀ token ∈ (takenExponent depth waiting rest).1, token.kind ≠ .finish) ∧
      Ended (takenExponent depth waiting rest).2.2 := by
  unfold takenExponent
  split
  · next caret exponent after =>
    split
    · next number =>
      have behind := ended.behind (by simp [number.1])
      exact ⟨by simp [number, inserted], behind.behind (by simp [number.2])⟩
    · split
      · next opening => exact ⟨by simp [opening.1], ended.behind (by simp [opening.1])⟩
      · exact ⟨by simp [unitExponent, inserted], ended⟩
  · exact ⟨by simp [unitExponent, inserted], ended⟩

/-- Spelling out implicit products leaves the end of the text where it is. -/
theorem spelledOut_ended {depth : Nat} {waiting : List Nat} {held : Option Token} {tokens : List Token}
    (number : ∀ token ∈ held.toList, token.kind = .number) (ended : Ended tokens) :
    Ended (spelledOut depth waiting held tokens) := by
  have before (held : Option Token) (number : ∀ token ∈ held.toList, token.kind = .number) (token : Token)
      (member : token ∈ held.toList) : token.kind ≠ .finish := by simp [number token member]
  have nothing : ∀ token ∈ (none : Option Token).toList, token.kind = .number :=
    fun _ absurd => (by cases absurd)
  fun_induction spelledOut depth waiting held tokens with
  | case1 depth waiting held => cases ended
  | case2 depth waiting held token rest letter taken ih =>
    obtain ⟨exponent, later⟩ := takenExponent_ended depth waiting (ended.behind (by simp [letter]))
    have coefficient : (held.getD (inserted .number "1")).kind = .number := by
      cases held with
      | none => rfl
      | some token => exact number token (List.mem_cons_self ..)
    have opened : ∀ t ∈ openedTerm (held.getD (inserted .number "1")) token, t.kind ≠ .finish := by
      simp only [openedTerm, List.forall_mem_cons, coefficient, letter]
      simp [inserted]
    rw [List.append_assoc]
    exact .append opened (.append exponent (ih nothing later))
  | case3 depth waiting held token rest letter isNumber ih =>
    refine .append (before held number) (ih ?_ (ended.behind (by simp [isNumber])))
    exact fun t member => List.mem_singleton.mp member ▸ isNumber
  | case4 depth waiting held token rest letter isNumber call ih =>
    have other : token.kind ≠ .finish := by rcases call with h | h | h | h <;> simp [h]
    rw [List.append_assoc]
    refine .append (before held number) (.append ?_ (.cons other (ih nothing (ended.behind other))))
    cases held <;> simp [inserted]
  | case5 depth waiting held token rest letter isNumber call opening ih =>
    have other : token.kind ≠ .finish := by simp [opening]
    exact .append (before held number) (.cons other (ih nothing (ended.behind other)))
  | case6 depth waiting held token rest letter isNumber call opening closing exponent ih =>
    have other : token.kind ≠ .finish := by simp [closing]
    have brackets : ∀ t ∈ exponent.2, t.kind ≠ .finish := by
      rcases endedExponent_brackets (depth - 1) waiting with alone | closed
      · simp [exponent, alone]
      · simp [exponent, closed, inserted]
    rw [List.append_assoc]
    exact .append (before held number) (.cons other (.append brackets (ih nothing (ended.behind other))))
  | case7 depth waiting held token rest letter isNumber call opening closing ih =>
    refine .append (before held number) ?_
    by_cases finish : token.kind = .finish
    · rw [ended.last finish, spelledOut]
      exact .finish finish
    · exact .cons finish (ih nothing (ended.behind finish))

/-- The tokens that an expression is built from end with the end of the text. -/
theorem ofText_ended {text : String} {tokens : List Token} (read : ofText text = .ok tokens) :
    Ended tokens := by
  unfold ofText at read
  cases scanned : scan text with
  | error error => simp [scanned, Except.map] at read
  | ok written =>
    rw [scanned] at read
    obtain rfl := Except.ok.inj read
    rw [groupProducts_eq]
    exact spelledOut_ended (fun _ absurd => (by cases absurd))
      (scanFrom_ended (fun _ absurd => (by cases absurd)) scanned)

end Stepwise.Token
