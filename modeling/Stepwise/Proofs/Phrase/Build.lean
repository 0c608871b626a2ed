import Stepwise.Proofs.Phrase.Scan

/-! Building the tree of a phrase. Main statement: the tokens of a valid phrase, with its implicit products
spelled out, are built into its tree, and what follows finds the tree where its last operand is expected. -/
namespace Stepwise

namespace Token

/-- How deep brackets get when `depth` of them are open already. -/
def nesting (depth : Nat) : List Token → Nat
  | [] => depth
  | token :: rest =>
    max depth (nesting
      (if token.kind = .opening then depth + 1 else if token.kind = .closing then depth - 1 else depth) rest)

variable {depth : Nat} {waiting : List Nat} {token : Token} {rest : List Token}

theorem nesting_opening (opening : token.kind = .opening) :
    nesting (depth + 1) rest ≤ nesting depth (token :: rest) := by
  rw [nesting, if_pos opening]
  exact Nat.le_max_right ..

theorem le_nesting (depth : Nat) (tokens : List Token) : depth ≤ nesting depth tokens := by
  cases tokens with
  | nil => exact Nat.le_refl _
  | cons token rest => exact Nat.le_max_left ..

theorem nesting_closing (closing : token.kind = .closing) :
    nesting depth rest ≤ nesting (depth + 1) (token :: rest) := by
  rw [nesting, if_neg (by simp [closing]), if_pos closing]
  exact Nat.le_max_right ..

theorem nesting_other (opening : token.kind ≠ .opening) (closing : token.kind ≠ .closing) :
    nesting depth rest ≤ nesting depth (token :: rest) := by
  rw [nesting, if_neg opening, if_neg closing]
  exact Nat.le_max_right ..

theorem nesting_openedTerm (depth : Nat) (coefficient letter : Token) (rest : List Token)
    (number : coefficient.kind = .number) (isLetter : letter.kind = .letter) :
    depth + 1 ≤ nesting depth (openedTerm coefficient letter ++ rest) ∧
      nesting (depth + 1) rest ≤ nesting depth (openedTerm coefficient letter ++ rest) := by
  have inner : nesting (depth + 1) rest ≤ nesting depth (openedTerm coefficient letter ++ rest) := calc
    nesting (depth + 1) rest ≤ nesting (depth + 1) (letter :: rest) :=
    nesting_other (by simp [isLetter]) (by simp [isLetter])
    _ ≤ nesting (depth + 1) (inserted .times "*" :: letter :: rest) := nesting_other (by decide) (by decide)
    _ ≤ nesting (depth + 1) (coefficient :: inserted .times "*" :: letter :: rest) :=
      nesting_other (by simp [number]) (by simp [number])
    _ ≤ nesting depth (openedTerm coefficient letter ++ rest) := nesting_opening rfl
  exact ⟨Nat.le_trans (le_nesting ..) inner, inner⟩

/-- A variable term is closed again. -/
theorem nesting_term (depth : Nat) (coefficient letter caret exponent : Token) (rest : List Token)
    (number : coefficient.kind = .number) (isLetter : letter.kind = .letter) (power : caret.kind = .power)
    (digits : exponent.kind = .number) :
    depth + 1 ≤ nesting depth
      (openedTerm coefficient letter ++ caret :: exponent :: inserted .closing ")" :: rest) ∧
      nesting depth rest ≤ nesting depth
      (openedTerm coefficient letter ++ caret :: exponent :: inserted .closing ")" :: rest) := by
  obtain ⟨room, inner⟩ := nesting_openedTerm depth coefficient letter
    (caret :: exponent :: inserted .closing ")" :: rest) number isLetter
  refine ⟨room, ?_⟩
  calc nesting depth rest
    _ ≤ nesting (depth + 1) (inserted .closing ")" :: rest) := nesting_closing rfl
    _ ≤ nesting (depth + 1) (exponent :: inserted .closing ")" :: rest) :=
      nesting_other (by simp [digits]) (by simp [digits])
    _ ≤ nesting (depth + 1) (caret :: exponent :: inserted .closing ")" :: rest) :=
      nesting_other (by simp [power]) (by simp [power])
    _ ≤ nesting depth (openedTerm coefficient letter ++ _) := inner

/-- The bracket of an exponent is opened inside that of its term. -/
theorem nesting_raised (depth : Nat) (coefficient letter caret opening : Token) (rest : List Token)
    (number : coefficient.kind = .number) (isLetter : letter.kind = .letter) (power : caret.kind = .power)
    (bracket : opening.kind = .opening) :
    nesting (depth + 2) rest ≤ nesting depth (openedTerm coefficient letter ++ caret :: opening :: rest) := by
  obtain ⟨_, inner⟩ := nesting_openedTerm depth coefficient letter (caret :: opening :: rest) number isLetter
  calc nesting (depth + 2) rest
    _ ≤ nesting (depth + 1) (opening :: rest) := nesting_opening bracket
    _ ≤ nesting (depth + 1) (caret :: opening :: rest) := nesting_other (by simp [power]) (by simp [power])
    _ ≤ nesting depth (openedTerm coefficient letter ++ _) := inner

/-- The token stands behind a complete phrase: an operator, the end of a bracket, or the end of the text. -/
def Kind.IsBehind (kind : Kind) : Prop := kind.rank?.isSome ∨ kind = closing ∨ kind = finish

theorem spelledOut_held (behind : token.kind.IsBehind) (number : Token) :
    spelledOut depth waiting (some number) (token :: rest) =
      number :: spelledOut depth waiting none (token :: rest) := by
  have letter : token.kind ≠ .letter := fun same => by simp [Kind.IsBehind, same, Kind.rank?] at behind
  have other : token.kind ≠ .number := fun same => by simp [Kind.IsBehind, same, Kind.rank?] at behind
  have call : ¬ token.kind.IsCall := fun same => by
    rcases same with same | same | same | same <;> simp [Kind.IsBehind, same, Kind.rank?] at behind
  have opening : token.kind ≠ .opening := fun same => by simp [Kind.IsBehind, same, Kind.rank?] at behind
  rw [spelledOut, spelledOut]
  simp only [letter, other, call, opening, if_false, Option.toList_some, Option.toList_none, List.nil_append,
    List.singleton_append]
  split <;> rfl

theorem spelledOut_number (number : token.kind = .number) {next : Token} (behind : next.kind.IsBehind) :
    spelledOut depth waiting none (token :: next :: rest) =
      token :: spelledOut depth waiting none (next :: rest) := by
  rw [spelledOut, if_neg (by simp [number]), if_pos number, spelledOut_held behind]
  rfl

/-- A token that no implicit product depends on is put out as it is. -/
theorem spelledOut_plain_token (plain : token.IsPlain) (number : token.kind ≠ .number)
    (opening : token.kind ≠ .opening) (closing : token.kind ≠ .closing) :
    spelledOut depth waiting none (token :: rest) = token :: spelledOut depth waiting none rest := by
  rw [spelledOut, if_neg plain.1, if_neg number, if_neg plain.2, if_neg opening, if_neg closing]
  rfl

theorem spelledOut_operator (rank : token.kind.rank?.isSome) :
    spelledOut depth waiting none (token :: rest) = token :: spelledOut depth waiting none rest := by
  apply spelledOut_plain_token
  · constructor
    · intro same
      simp [same, Kind.rank?] at rank
    · intro same
      rcases same with same | same | same | same <;> simp [same, Kind.rank?] at rank
  all_goals
    intro same
    simp [same, Kind.rank?] at rank

theorem spelledOut_finish (finish : token.kind = .finish) :
    spelledOut depth waiting none (token :: rest) = token :: spelledOut depth waiting none rest := by
  apply spelledOut_plain_token
  · constructor <;> simp [finish, Kind.IsCall]
  all_goals simp [finish]

theorem spelledOut_factorial (factorial : token.kind = .factorial) :
    spelledOut depth waiting none (token :: rest) = token :: spelledOut depth waiting none rest := by
  apply spelledOut_plain_token
  · constructor <;> simp [factorial, Kind.IsCall]
  all_goals simp [factorial]

theorem spelledOut_call (call : token.kind.IsCall) :
    spelledOut depth waiting none (token :: rest) = token :: spelledOut depth waiting none rest := by
  have letter : token.kind ≠ .letter := fun same => by simp [Kind.IsCall, same] at call
  have number : token.kind ≠ .number := fun same => by simp [Kind.IsCall, same] at call
  rw [spelledOut, if_neg letter, if_neg number, if_pos call]
  rfl

theorem spelledOut_opening (opening : token.kind = .opening) :
    spelledOut depth waiting none (token :: rest) = token :: spelledOut (depth + 1) waiting none rest := by
  rw [spelledOut, if_neg (by simp [opening]), if_neg (by simp [opening]),
    if_neg (by simp [opening, Kind.IsCall]), if_pos opening]
  rfl

/-- A bracket that ends no exponent closes alone. -/
theorem spelledOut_closing (closing : token.kind = .closing) (pending : ∀ n ∈ waiting, n < depth) :
    spelledOut (depth + 1) waiting none (token :: rest) = token :: spelledOut depth waiting none rest := by
  rw [spelledOut, if_neg (by simp [closing]), if_neg (by simp [closing]),
    if_neg (by simp [closing, Kind.IsCall]), if_neg (by simp [closing]), if_pos closing]
  cases waiting with
  | nil => rfl
  | cons next outer =>
    have other : next ≠ depth := Nat.ne_of_lt (pending next (List.mem_cons_self ..))
    simp [endedExponent, other]

/-- The bracket of an exponent closes its term with it. -/
theorem spelledOut_ending (closing : token.kind = .closing) :
    spelledOut (depth + 1) (depth :: waiting) none (token :: rest) =
      token :: inserted .closing ")" :: spelledOut depth waiting none rest := by
  rw [spelledOut, if_neg (by simp [closing]), if_neg (by simp [closing]),
    if_neg (by simp [closing, Kind.IsCall]), if_neg (by simp [closing]), if_pos closing]
  simp [endedExponent]

/-- A letter without an exponent gets the exponent one. -/
theorem spelledOut_letter (letter : token.kind = .letter) {next : Token}
    (ends : ∀ second, rest.head? = some second → next.kind = .power → second.kind ≠ .number ∧
      second.kind ≠ .opening) :
    spelledOut depth waiting none (token :: next :: rest) =
      openedTerm (inserted .number "1") token ++ unitExponent ++ spelledOut depth waiting none
      (next :: rest) := by
  have taken : takenExponent depth waiting (next :: rest) = (unitExponent, waiting, next :: rest) := by
    cases rest with
    | nil => rfl
    | cons second rest =>
      have number : ¬ (next.kind = .power ∧ second.kind = .number) :=
        fun both => (ends second rfl both.1).1 both.2
      have opening : ¬ (next.kind = .power ∧ second.kind = .opening) :=
        fun both => (ends second rfl both.1).2 both.2
      rw [takenExponent, if_neg number, if_neg opening]
  rw [spelledOut, if_pos letter, taken]
  rfl

theorem spelledOut_power (letter : token.kind = .letter) {caret exponent : Token}
    (power : caret.kind = .power) (number : exponent.kind = .number) :
    spelledOut depth waiting none (token :: caret :: exponent :: rest) =
      openedTerm (inserted .number "1") token ++ caret :: exponent :: inserted .closing ")" ::
        spelledOut depth waiting none rest := by
  rw [spelledOut, if_pos letter]
  simp [takenExponent, power, number]

theorem spelledOut_raised (letter : token.kind = .letter) {caret opening : Token}
    (power : caret.kind = .power) (bracket : opening.kind = .opening) :
    spelledOut depth waiting none (token :: caret :: opening :: rest) =
      openedTerm (inserted .number "1") token ++ caret :: opening ::
        spelledOut (depth + 1) (depth :: waiting) none rest := by
  rw [spelledOut, if_pos letter]
  simp [takenExponent, power, bracket, spelledOut_opening bracket]

end Token

namespace Waiting

variable {ν : Type}

def Binds (tier : Nat) (w : Waiting (Label ν)) : Prop :=
  ∃ rank, w.1.token.kind.rank? = some rank ∧ tier ≤ rank

/-- The innermost operator leaves a phrase of that tier to itself. -/
def Admits (tier : Nat) (waiting : List (Waiting (Label ν))) : Prop :=
  ∀ w, waiting.head? = some w → 3 ≤ tier ∨ ∃ rank, w.1.token.kind.rank? = some rank ∧ rank < tier

theorem Admits.mono {low high : Nat} {waiting : List (Waiting (Label ν))} (admits : Admits low waiting)
    (le : low ≤ high) : Admits high waiting := by
  intro w first
  rcases admits w first with large | ⟨rank, known, less⟩
  · exact .inl (Nat.le_trans large le)
  · exact .inr ⟨rank, known, Nat.lt_of_lt_of_le less le⟩

theorem Binds.mono {low high : Nat} {w : Waiting (Label ν)} (binds : w.Binds high)
    (le : low ≤ high) : w.Binds low := by
  obtain ⟨rank, known, large⟩ := binds
  exact ⟨rank, known, Nat.le_trans le large⟩

theorem close_append (inner outer : List (Waiting (Label ν))) (x : Tree (Label ν)) :
    close (inner ++ outer) x = close outer (close inner x) := by
  induction inner generalizing x with
  | nil => rfl
  | cons w inner ih => exact ih (.fork w.1 w.2 x)

/-- An operator closes those that bind tightly enough. -/
theorem closeWhile_append {closes : Label ν → Bool} {inner : List (Waiting (Label ν))}
    (all : ∀ w ∈ inner, closes w.1) (outer : List (Waiting (Label ν))) (x : Tree (Label ν)) :
    closeWhile closes (inner ++ outer) x = closeWhile closes outer (close inner x) := by
  induction inner generalizing x with
  | nil => rfl
  | cons w inner ih =>
    obtain ⟨a, left⟩ := w
    have first : closes a := all _ (List.mem_cons_self ..)
    rw [List.cons_append, closeWhile, if_pos first]
    exact ih (fun v member => all v (List.mem_cons_of_mem _ member)) (.fork a left x)

theorem closeWhile_stop {closes : Label ν → Bool} {waiting : List (Waiting (Label ν))}
    (stops : ∀ w, waiting.head? = some w → closes w.1 = false) (x : Tree (Label ν)) :
    closeWhile closes waiting x = (waiting, x) := by
  cases waiting with
  | nil => rfl
  | cons w outer =>
    obtain ⟨a, left⟩ := w
    rw [closeWhile, if_neg (by simp [stops _ rfl])]

variable {kind : Token.Kind} {w : Waiting (Label ν)} {rank : Nat}

theorem yields_of_binds {tier : Nat} (isOperator : kind.rank?.isSome) (loose : kind.leftTier ≤ tier)
    (binds : w.Binds tier) (position : Nat) : Draft.yields (.symbol kind position) w.1 = true := by
  obtain ⟨rank, known, large⟩ := binds
  have le := Nat.le_trans loose large
  unfold Draft.yields Expression.Builder.climbsOver
  simp only [Token.symbol, Token.isInserted, Option.isNone_some, known]
  cases above : w.1.token.kind <;> rw [above] at known <;> simp [Token.Kind.rank?] at known <;>
    subst known <;> cases kind <;> simp [Token.Kind.rank?, Token.Kind.leftTier] at isOperator le ⊢

theorem not_yields_of_admits (known : kind.rank? = some rank) {waiting : List (Waiting (Label ν))}
    (admits : Admits rank waiting) (position : Nat) (first : waiting.head? = some w) :
    Draft.yields (.symbol kind position) w.1 = false := by
  have head := admits w first
  unfold Draft.yields Expression.Builder.climbsOver
  simp only [Token.symbol, Token.isInserted, Option.isNone_some, known]
  rcases head with large | ⟨above, found, less⟩
  · cases kind <;> simp [Token.Kind.rank?] at known <;> subst known <;> simp at large
    cases above : w.1.token.kind <;> simp [Token.Kind.rank?]
  · simp only [found]
    cases kind <;> simp [Token.Kind.rank?] at known <;> subst known <;> simp at less ⊢ <;> omega

end Waiting

namespace Draft

open Expression (maxNesting)
open Expression.Builder (isLoneNumber)

variable {ν : Type} {waiting : List (Waiting (Label ν))} {outer : List (Spine (Label ν))} {token : Token}
  {rest : List Token} {last : Tree (Label ν)}

theorem build_cons {d later : Draft (Label ν)} (kind : token.kind ≠ .finish)
    (placed : d.place token rest = .ok (later, 0)) :
    d.build (token :: rest) = later.build rest := by
  rw [build, if_neg kind, placed]
  rfl

theorem build_operand (kind : token.kind = .number ∨ token.kind = .letter) :
    build ⟨{ waiting }, outer⟩ (token :: rest) =
      build ⟨{ waiting, last := some (.leaf { token }) }, outer⟩ rest := by
  apply build_cons
  · rcases kind with h | h <;> simp [h]
  · rcases kind with h | h <;> simp [place, operand, awaiting, attach, h, Except.map]

theorem build_ofFactorial (kind : token.kind = .factorial) :
    build ⟨{ waiting }, outer⟩ (token :: rest) =
      build ⟨{ waiting, last := some (.ofFactorial token) }, outer⟩ rest := by
  apply build_cons
  · simp [kind]
  · simp [place, operand, awaiting, attach, kind, Except.map]

theorem build_factorial (kind : token.kind = .factorial)
    (large : Expression.Builder.smallWhole? token.text = none) :
    build ⟨{ waiting }, outer⟩ (token :: rest) =
      build ⟨{ waiting, last := some (.leaf { token }) }, outer⟩ rest := by
  rw [build_ofFactorial kind, Tree.ofFactorial, large]

theorem build_operator (rank : token.kind.rank?.isSome) :
    build ⟨{ waiting, last := some last }, outer⟩ (token :: rest) =
      build ⟨{ waiting := ({ token }, (Waiting.closeWhile (yields token) waiting last).2) ::
        (Waiting.closeWhile (yields token) waiting last).1 }, outer⟩ rest := by
  apply build_cons
  · intro same
    simp [same, Token.Kind.rank?] at rank
  · unfold place
    cases kind : token.kind <;> rw [kind] at rank <;> simp [Token.Kind.rank?] at rank <;>
      simp [operator, awaiting, placeOperator]

theorem build_opening {call : Option Token} (opening : token.kind = .opening)
    (room : outer.length + 1 ≤ maxNesting) :
    build ⟨{ waiting, call }, outer⟩ (token :: rest) = build ⟨{}, { waiting, call } :: outer⟩ rest := by
  have shallow : ¬ outer.length + 1 > maxNesting := Nat.not_lt_of_le room
  apply build_cons
  · simp [opening]
  · simp [place, opening, openBracket, awaiting, shallow, Except.map]

theorem build_closing {call around : Option Token} {enclosing : List (Waiting (Label ν))}
    (closing : token.kind = .closing) :
    build ⟨{ waiting, last := some last, call }, { waiting := enclosing, call := around } :: outer⟩
      (token :: rest) =
      build ⟨{ waiting := enclosing, last := some ((Waiting.close waiting last).applyCall around) },
      outer⟩ rest := by
  apply build_cons
  · simp [closing]
  · simp [place, closing, closeBracket, Spine.tree?, attach, Except.map]

theorem build_call {next : Token} (call : token.kind.IsCall) (opening : next.kind = .opening) :
    build ⟨{ waiting }, outer⟩ (token :: next :: rest) =
      build ⟨{ waiting, call := some token }, outer⟩ (next :: rest) := by
  apply build_cons
  · rcases call with h | h | h | h <;> simp [h]
  · rcases call with h | h | h | h <;> simp [place, h, openCall, awaiting, opening, Except.map]

theorem build_sign (sign : token.kind = .plus ∨ token.kind = .minus)
    (composite : token.kind = .minus → isLoneNumber rest = false) :
    build ⟨{ waiting }, outer⟩ (token :: rest) =
      build ⟨{ waiting :=
        ({ token, unary := true }, .leaf { token := .inserted .number "0" }) :: waiting }, outer⟩
        rest := by
  apply build_cons
  · rcases sign with h | h <;> simp [h]
  · rcases sign with h | h
    · simp [place, operator, awaiting, placeSign, h]
    · simp [place, operator, awaiting, placeSign, h, composite h]

/-- A minus sign makes a lone number behind it negative. -/
theorem build_negative {number : Token} (minus : token.kind = .minus) (lone : isLoneNumber (number :: rest)) :
    build ⟨{ waiting }, outer⟩ (token :: number :: rest) =
      build
      ⟨{ waiting, last := some (.leaf { token := ⟨.number, "-" ++ number.text, token.position⟩ }) },
      outer⟩ rest := by
  rw [build, if_neg (by simp [minus])]
  have placed : place ⟨{ waiting }, outer⟩ token (number :: rest) =
      .ok (attach ⟨{ waiting }, outer⟩
      (.leaf { token := ⟨.number, "-" ++ number.text, token.position⟩ }), 1) := by
    simp [place, operator, awaiting, minus, lone]
  rw [placed]
  rfl

/-- An inserted multiplication sign and a caret leave what stands before them where it is. -/
theorem build_openedTerm {call : Option Token} {coefficient letter caret : Token}
    (number : coefficient.kind = .number) (isLetter : letter.kind = .letter)
    (power : caret.kind = .power) (room : outer.length + 1 ≤ maxNesting) :
    build ⟨{ waiting, call }, outer⟩ (Token.openedTerm coefficient letter ++ caret :: rest) =
      build ⟨{ waiting := [({ token := caret }, .leaf { token := letter }),
        ({ token := .inserted .times "*" }, .leaf { token := coefficient })] },
        { waiting, call } :: outer⟩ rest := by
  rw [Token.openedTerm, List.cons_append, List.cons_append, List.cons_append, List.cons_append,
    List.nil_append, build_opening rfl room, build_operand (.inl number), build_operator rfl,
    Waiting.closeWhile, build_operand (.inr isLetter), build_operator (by rw [power]; rfl)]
  have stays : yields caret ({ token := .inserted .times "*" } : Label ν) = false := by
    simp [yields, Expression.Builder.climbsOver, power, Token.inserted, Token.Kind.rank?]
  simp only [Waiting.closeWhile, stays, Bool.false_eq_true, if_false]

/-- A letter with a number for its exponent. -/
theorem build_term {call : Option Token} {coefficient letter caret exponent : Token}
    (number : coefficient.kind = .number) (isLetter : letter.kind = .letter)
    (power : caret.kind = .power) (isNumber : exponent.kind = .number)
    (room : outer.length + 1 ≤ maxNesting) :
    build ⟨{ waiting, call }, outer⟩ (Token.openedTerm coefficient letter ++
        caret :: exponent :: Token.inserted .closing ")" :: rest) =
      build ⟨{
          waiting
          last := some (Tree.applyCall call
            (.ofLetter coefficient letter caret (.leaf { token := exponent }))) }, outer⟩ rest := by
  rw [build_openedTerm number isLetter power room, build_operand (.inl isNumber), build_closing rfl]
  rfl

end Draft

namespace Phrase

open Token Waiting Draft
open Expression (maxNesting)
open Expression.Builder (isLoneNumber)

variable {ν : Type}

def Follows (p : Phrase) (rest : List Token) : Prop :=
  ∃ next after, rest = next :: after ∧
    (next.kind = .closing ∨ next.kind = .finish ∨ (next.kind.rank?.isSome ∧ next.kind.leftTier ≤ p.tier)) ∧
    ∀ second, after.head? = some second → p.Ends next.kind second.kind

theorem isLoneNumber_other {first : Token} (other : first.kind ≠ .number) (rest : List Token) :
    isLoneNumber (first :: rest) = false := by
  cases rest with
  | nil => simpa [isLoneNumber] using other
  | cons second rest => simp [isLoneNumber, other]

theorem spelledOut_letter_head (depth : Nat) (waiting : List Nat) {letter : Token}
    (isLetter : letter.kind = .letter) (rest : List Token) :
    ∃ more, spelledOut depth waiting none (letter :: rest) = inserted .opening "(" :: more := by
  rw [spelledOut, if_pos isLetter]
  exact ⟨_, rfl⟩

theorem spelledOut_behind_head (depth : Nat) (waiting : List Nat) {token : Token}
    (behind : token.kind.IsBehind) (rest : List Token) :
    ∃ more, spelledOut depth waiting none (token :: rest) = token :: more := by
  rcases behind with rank | closing | finish
  · exact ⟨_, spelledOut_operator rank⟩
  · rw [spelledOut, if_neg (by simp [closing]), if_neg (by simp [closing]),
      if_neg (by simp [closing, Kind.IsCall]), if_neg (by simp [closing]), if_pos closing]
    exact ⟨_, rfl⟩
  · exact ⟨_, spelledOut_finish finish⟩

/-- Only a number alone is taken into a minus sign. -/
theorem not_lone {p : Phrase} (valid : p.Valid) (tight : 2 ≤ p.tier) (composite : ∀ digits, p ≠ number digits)
    {depth : Nat} {waiting : List Nat} {position : Nat} (rest : List Token) :
    isLoneNumber (spelledOut depth waiting none (p.tokens position ++ rest)) = false := by
  have term (letter : Token) (isLetter : letter.kind = .letter) (rest : List Token) :
      isLoneNumber (spelledOut depth waiting none (letter :: rest)) = false := by
    obtain ⟨more, head⟩ := spelledOut_letter_head depth waiting isLetter rest
    rw [head]
    exact isLoneNumber_other (by decide) _
  induction p generalizing rest with
  | number digits => exact absurd rfl (composite digits)
  | factorial digits =>
    rw [tokens, List.singleton_append, spelledOut_factorial rfl]
    exact isLoneNumber_other (by simp) _
  | letter name => exact term _ rfl _
  | power name digits => exact term _ rfl _
  | raised name exponent ih => exact term _ rfl _
  | call kind keyword argument ih =>
    rw [tokens_call, spelledOut_call valid.1]
    refine isLoneNumber_other ?_ _
    rcases valid.1 with h | h | h | h <;> simp [h]
  | bracket inner ih =>
    rw [tokens_bracket, spelledOut_opening rfl]
    exact isLoneNumber_other (by simp [symbol]) _
  | sign kind operand ih => simp [tier] at tight
  | operator kind left right ihl ihr =>
    obtain ⟨rank, l, _, fits, _⟩ := valid
    have multiplies : kind = .times ∨ kind = .divide ∨ kind = .power := by
      cases kind <;> simp [tier, Kind.rank?] at tight rank ⊢
    rw [tokens_operator]
    by_cases number : ∃ digits, left = Phrase.number digits
    · obtain ⟨digits, rfl⟩ := number
      rw [tokens, List.singleton_append, spelledOut_number rfl (.inl rank), spelledOut_operator rank]
      rcases multiplies with rfl | rfl | rfl <;> simp [isLoneNumber, symbol]
    · apply ihl l
      · refine Nat.le_trans ?_ fits
        rcases multiplies with rfl | rfl | rfl <;> decide
      · exact fun digits same => number ⟨digits, same⟩

theorem Follows.behind {p : Phrase} {next : Token} {after : List Token}
    (follows : p.Follows (next :: after)) :
    next.kind.IsBehind := by
  obtain ⟨_, _, same, allowed, _⟩ := follows
  obtain ⟨rfl, rfl⟩ := List.cons.inj same
  rcases allowed with closing | finish | ⟨rank, _⟩
  · exact .inr (.inl closing)
  · exact .inr (.inr finish)
  · exact .inl rank

/-- What may follow a phrase may follow one that binds more tightly, a lone letter left aside. -/
theorem Follows.mono {p q : Phrase} {rest : List Token} (follows : p.Follows rest)
    (le : p.tier ≤ q.tier) (loose : p.tier < 4) :
    q.Follows rest := by
  obtain ⟨next, after, rfl, allowed, _⟩ := follows
  refine ⟨next, after, rfl, ?_, ?_⟩
  · rcases allowed with closing | finish | ⟨rank, fits⟩
    · exact .inl closing
    · exact .inr (.inl finish)
    · exact .inr (.inr ⟨rank, Nat.le_trans fits le⟩)
  · rintro second _ _ power
    rcases allowed with closing | finish | ⟨_, fits⟩
    · simp [closing] at power
    · simp [finish] at power
    · rw [power, Kind.leftTier] at fits
      omega

/-- A phrase in brackets is followed by its closing bracket. -/
theorem follows_closing (p : Phrase) {bracket : Token} (closing : bracket.kind = .closing)
    (rest : List Token) :
    p.Follows (bracket :: rest) := by
  refine ⟨bracket, rest, rfl, .inl closing, ?_⟩
  rintro second _ _ power
  simp [closing] at power

def BuiltBefore (p : Phrase) (ν : Type) (rest : List Token) : Prop :=
  ∀ (position depth : Nat) (pending : List Nat) (waiting : List (Waiting (Label ν)))
      (outer : List (Spine (Label ν))),
    Waiting.Admits p.tier waiting → (∀ n ∈ pending, n < depth) →
    nesting outer.length (spelledOut depth pending none (p.tokens position ++ rest)) ≤ maxNesting →
    ∃ added last, (∀ w ∈ added, w.Binds p.tier) ∧ Waiting.close added last = p.tree position ∧
      nesting outer.length (spelledOut depth pending none rest) ≤ maxNesting ∧
      Draft.build ⟨{ waiting }, outer⟩ (spelledOut depth pending none (p.tokens position ++ rest)) =
        Draft.build ⟨{ waiting := added ++ waiting, last := some last }, outer⟩
        (spelledOut depth pending none rest)

theorem built_number (digits : String) {rest : List Token} (follows : (number digits).Follows rest) :
    (number digits).BuiltBefore ν rest := by
  intro position depth pending waiting outer admits inside shallow
  obtain ⟨next, after, rfl, _⟩ := id follows
  rw [tokens, List.singleton_append, spelledOut_number rfl follows.behind] at shallow ⊢
  refine ⟨[], _, fun _ member => absurd member List.not_mem_nil, rfl, ?_, build_operand (.inl rfl)⟩
  exact Nat.le_trans (nesting_other (by simp) (by simp)) shallow

theorem built_factorial {digits : String} (valid : (factorial digits).Valid) (rest : List Token) :
    (factorial digits).BuiltBefore ν rest := by
  intro position depth pending waiting outer admits inside shallow
  rw [tokens, List.singleton_append, spelledOut_factorial rfl]
    at shallow ⊢
  refine ⟨[], _, fun _ member => absurd member List.not_mem_nil, rfl, ?_, build_factorial rfl valid.2⟩
  exact Nat.le_trans (nesting_other (by simp) (by simp)) shallow

theorem built_letter (name : String) {rest : List Token} (follows : (letter name).Follows rest) :
    (letter name).BuiltBefore ν rest := by
  intro position depth pending waiting outer admits inside shallow
  obtain ⟨next, after, rfl, _, ends⟩ := follows
  have alone (second : Token) (first : after.head? = some second) (power : next.kind = .power) :=
    ends second first ⟨name, rfl⟩ power
  rw [tokens, List.singleton_append, spelledOut_letter rfl alone, List.append_assoc] at shallow ⊢
  obtain ⟨room, later⟩ := nesting_term outer.length (inserted .number "1")
    ⟨.letter, name, some position⟩ (inserted .power "^") (inserted .number "1")
    (spelledOut depth pending none (next :: after)) rfl rfl rfl rfl
  exact ⟨[], _, fun _ member => absurd member List.not_mem_nil, rfl, Nat.le_trans later shallow,
    build_term rfl rfl rfl rfl (Nat.le_trans room shallow)⟩

theorem built_power (name digits : String) (rest : List Token) : (power name digits).BuiltBefore ν rest := by
  intro position depth pending waiting outer admits inside shallow
  have exponent : (symbol .power (position + 1)).kind = .power := rfl
  rw [tokens, List.cons_append, List.cons_append, List.singleton_append,
    spelledOut_power rfl exponent rfl] at shallow ⊢
  obtain ⟨room, later⟩ := nesting_term outer.length (inserted .number "1") ⟨.letter, name, some position⟩ _
    ⟨.number, digits, some (position + 2)⟩ (spelledOut depth pending none rest) rfl rfl exponent rfl
  exact ⟨[], _, fun _ member => absurd member List.not_mem_nil, rfl, Nat.le_trans later shallow,
    build_term rfl rfl exponent rfl (Nat.le_trans room shallow)⟩

/-- A phrase between brackets is built on a level of its own. -/
theorem built_enclosed {p : Phrase} (built : ∀ rest, p.Follows rest → p.BuiltBefore ν rest)
    (waiting : List (Waiting (Label ν))) (call : Option Token) (outer : List (Spine (Label ν)))
    {position depth : Nat} {pending : List Nat} (inside : ∀ n ∈ pending, n < depth)
    {closing : Token} (closes : closing.kind = .closing) {rest : List Token}
    (shallow : nesting (outer.length + 1)
      (spelledOut depth pending none (p.tokens position ++ closing :: rest)) ≤ maxNesting)
    {more : List Token}
    (spelled : spelledOut depth pending none (closing :: rest) = closing :: more) :
    nesting outer.length more ≤ maxNesting ∧
      Draft.build ⟨{}, { waiting, call } :: outer⟩
      (spelledOut depth pending none (p.tokens position ++ closing :: rest)) =
        Draft.build ⟨{ waiting, last := some ((p.tree position).applyCall call) }, outer⟩ more := by
  have free : Waiting.Admits p.tier ([] : List (Waiting (Label ν))) := fun _ absurd => (by cases absurd)
  obtain ⟨added, last, _, tree, later, whole⟩ :=
    built _ (p.follows_closing closes rest) position depth pending [] ({ waiting, call } :: outer)
      free inside shallow
  rw [spelled] at later whole
  refine ⟨Nat.le_trans (nesting_closing closes) later, ?_⟩
  rw [whole, List.append_nil, build_closing closes, tree]

theorem built_bracket {inner : Phrase}
    (built : ∀ rest, inner.Follows rest → inner.BuiltBefore ν rest) (rest : List Token) :
    (bracket inner).BuiltBefore ν rest := by
  intro position depth pending waiting outer admits inside shallow
  rw [tokens_bracket, spelledOut_opening rfl] at shallow ⊢
  have closes : spelledOut (depth + 1) pending none
      (symbol .closing (position + 1 + inner.width) :: rest) = _ :=
    spelledOut_closing rfl inside
  have room : outer.length + 1 ≤ maxNesting :=
    Nat.le_trans (Nat.le_trans (le_nesting ..) (nesting_opening rfl)) shallow
  obtain ⟨later, whole⟩ :=
    built_enclosed built waiting none outer (fun n member => Nat.lt_succ_of_lt (inside n member))
    rfl (Nat.le_trans (nesting_opening rfl) shallow) closes
  refine ⟨[], _, fun _ member => absurd member List.not_mem_nil, rfl, later, ?_⟩
  rw [build_opening rfl room, whole]
  rfl

theorem built_call {kind : Token.Kind} {keyword : String} {argument : Phrase} (isCall : kind.IsCall)
    (built : ∀ rest, argument.Follows rest → argument.BuiltBefore ν rest) (rest : List Token) :
    (call kind keyword argument).BuiltBefore ν rest := by
  intro position depth pending waiting outer admits inside shallow
  let start := position + keyword.toList.length + 1
  have closes : spelledOut (depth + 1) pending none (symbol .closing (start + argument.width) :: rest) = _ :=
    spelledOut_closing rfl inside
  rw [tokens_call, spelledOut_call isCall, spelledOut_opening rfl] at shallow ⊢
  have opened : nesting outer.length (symbol .opening (position + keyword.toList.length) :: _) ≤ maxNesting :=
    Nat.le_trans (nesting_other (by rcases isCall with h | h | h | h <;> simp [h])
      (by rcases isCall with h | h | h | h <;> simp [h])) shallow
  have inner := Nat.le_trans (nesting_opening rfl) opened
  have room : outer.length + 1 ≤ maxNesting := Nat.le_trans (le_nesting ..) inner
  obtain ⟨later, whole⟩ := built_enclosed built waiting (some ⟨kind, keyword, some position⟩) outer
    (fun n member => Nat.lt_succ_of_lt (inside n member)) rfl inner closes
  refine ⟨[], _, fun _ member => absurd member List.not_mem_nil, rfl, later, ?_⟩
  rw [build_call isCall rfl, build_opening rfl room, whole]
  rfl

theorem built_raised {name : String} {exponent : Phrase}
    (built : ∀ rest, exponent.Follows rest → exponent.BuiltBefore ν rest) (rest : List Token) :
    (raised name exponent).BuiltBefore ν rest := by
  intro position depth pending waiting outer admits inside shallow
  have caret : (symbol .power (position + 1)).kind = .power := rfl
  have closes : spelledOut (depth + 1) (depth :: pending) none
      (symbol .closing (position + 3 + exponent.width) :: rest) = _ :=
    spelledOut_ending rfl
  rw [tokens_raised, spelledOut_raised rfl caret rfl] at shallow ⊢
  have inner := Nat.le_trans (nesting_raised outer.length _ _ _ _ _ rfl rfl caret rfl) shallow
  have below (n : Nat) (member : n ∈ depth :: pending) : n < depth + 1 := by
    rcases List.mem_cons.mp member with rfl | member
    · exact Nat.lt_succ_self n
    · exact Nat.lt_succ_of_lt (inside n member)
  obtain ⟨later, whole⟩ := built_enclosed built
    [({ token := symbol .power (position + 1) }, .leaf { token := ⟨.letter, name, some position⟩ }),
      ({ token := .inserted .times "*" }, .leaf { token := inserted .number "1" })] none
      ({ waiting } :: outer) below rfl
    inner closes
  refine ⟨[], _, fun _ member => absurd member List.not_mem_nil, rfl,
    Nat.le_trans (nesting_closing rfl) later, ?_⟩
  have deep : ({ waiting } :: outer : List (Spine (Label ν))).length + 1 ≤ maxNesting :=
    Nat.le_trans (le_nesting ..) inner
  rw [build_openedTerm rfl rfl caret (Nat.le_of_succ_le deep), build_opening rfl deep, whole,
    build_closing rfl]
  rfl

/-- A sign waits for the operand behind it, unless it is taken into a number. -/
theorem built_sign {kind : Token.Kind} {operand : Phrase} (valid : (sign kind operand).Valid)
    {rest : List Token} (follows : (sign kind operand).Follows rest)
    (built : operand.Follows rest → operand.BuiltBefore ν rest) :
    (sign kind operand).BuiltBefore ν rest := by
  intro position depth pending waiting outer admits inside shallow
  obtain ⟨isSign, tight, inner⟩ := valid
  have rank : kind.rank? = some 1 := by rcases isSign with rfl | rfl <;> rfl
  have plain : kind ≠ .opening ∧ kind ≠ .closing := by rcases isSign with rfl | rfl <;> decide
  rw [tokens, List.cons_append, spelledOut_operator
    (show (symbol kind position).kind.rank?.isSome by simp [symbol, rank])] at shallow ⊢
  have behind := Nat.le_trans (nesting_other plain.1 plain.2) shallow
  cases negative : negated? kind operand with
  | some digits =>
    obtain ⟨rfl, rfl⟩ := of_negated negative
    obtain ⟨next, after, rfl, allowed, _⟩ := id follows
    rw [tokens, List.singleton_append, spelledOut_number rfl follows.behind] at behind ⊢
    have lone : isLoneNumber (⟨.number, digits, some (position + 1)⟩ ::
        spelledOut depth pending none (next :: after)) := by
      obtain ⟨more, head⟩ := spelledOut_behind_head depth pending follows.behind after
      rw [head]
      rcases allowed with closing | finish | ⟨_, loose⟩
      · simp [isLoneNumber, closing]
      · simp [isLoneNumber, finish]
      · have loose : next.kind.leftTier ≤ 1 := loose
        cases kind : next.kind <;> simp [kind, Kind.leftTier] at loose <;> simp [isLoneNumber, kind]
    refine ⟨[], _, fun _ member => absurd member List.not_mem_nil, ?_,
      Nat.le_trans (nesting_other (by simp) (by simp)) behind, build_negative rfl lone⟩
    rw [tree, negative]
    rfl
  | none =>
    have composite (minus : (symbol kind position).kind = .minus) :
        isLoneNumber (spelledOut depth pending none (operand.tokens (position + 1) ++ rest)) = false := by
      apply not_lone inner tight
      rintro digits rfl
      obtain rfl : kind = .minus := minus
      cases negative
    have free : Waiting.Admits operand.tier
        (({ token := symbol kind position, unary := true },
        .leaf { token := .inserted .number "0" }) :: waiting) := by
      intro w first
      obtain rfl := Option.some.inj first
      exact .inr ⟨1, rank, tight⟩
    obtain ⟨added, last, binds, whole, later, goes⟩ :=
      built (follows.mono (Nat.le_trans (show 1 ≤ 2 by decide) tight) (show 1 < 4 by decide))
        (position + 1) depth pending _ outer free inside behind
    refine ⟨added ++ [({ token := symbol kind position, unary := true },
      .leaf { token := .inserted .number "0" })], last, ?_, ?_, later, ?_⟩
    · intro w member
      rcases List.mem_append.mp member with member | member
      · exact (binds w member).mono (Nat.le_trans (show 1 ≤ 2 by decide) tight)
      · obtain rfl := List.mem_singleton.mp member
        exact ⟨1, rank, Nat.le_refl 1⟩
    · rw [close_append, whole, tree, negative]
      rfl
    · rw [build_sign isSign composite, goes, List.append_assoc]
      rfl

theorem built_operator {kind : Token.Kind}
    {left right : Phrase} (valid : (operator kind left right).Valid)
    {rest : List Token} (follows : (operator kind left right).Follows rest)
    (builtl : ∀ rest, left.Follows rest → left.BuiltBefore ν rest)
    (builtr : right.Follows rest → right.BuiltBefore ν rest) :
    (operator kind left right).BuiltBefore ν rest := by
  intro position depth pending waiting outer admits inside shallow
  obtain ⟨rank, l, r, fitl, fitr, ends⟩ := valid
  obtain ⟨n, known⟩ := Option.isSome_iff_exists.mp rank
  have tierEq : (operator kind left right).tier = n := by simp [tier, known]
  rw [tierEq] at admits ⊢
  have lefts (m : Nat) (same : kind.leftTier ≤ m) : n ≤ m := by
    cases kind <;> simp [Kind.rank?] at known <;> subst known <;> simp [Kind.leftTier] at same <;> omega
  have rights : n < right.tier ∨ 3 ≤ right.tier := by
    cases kind <;> simp [Kind.rank?] at known <;> subst known <;> simp [Kind.rightTier] at fitr <;> omega
  have loose : n < 4 := by cases kind <;> simp [Kind.rank?] at known <;> omega
  have plain : kind ≠ .opening ∧ kind ≠ .closing := by
    constructor <;> rintro rfl <;> simp [Kind.rank?] at rank
  let middle := position + left.width + (gap kind).length
  obtain ⟨first, more, headed, opens, _⟩ := right.tokens_eq (middle + 1 + (gap kind).length)
  have followsl : left.Follows
      (symbol kind middle :: (right.tokens (middle + 1 + (gap kind).length) ++ rest)) := by
    refine ⟨_, _, rfl, .inr (.inr ⟨rank, fitl⟩), ?_⟩
    intro second head
    rw [headed] at head
    obtain rfl := Option.some.inj head
    exact opens ▸ ends
  rw [tokens_operator] at shallow ⊢
  obtain ⟨addedl, lastl, bindsl, wholel, laterl, goesl⟩ :=
    builtl _ followsl position depth pending waiting outer (admits.mono (lefts _ fitl)) inside shallow
  have closed : Waiting.closeWhile (yields (symbol kind middle)) (addedl ++ waiting) lastl =
      (waiting, left.tree position) := by
    rw [closeWhile_append fun w member => yields_of_binds rank fitl (bindsl w member) middle, wholel]
    exact closeWhile_stop (fun w head => not_yields_of_admits known admits middle head) _
  rw [spelledOut_operator (show (symbol kind middle).kind.rank?.isSome from rank)] at laterl goesl
  have behind := Nat.le_trans (nesting_other plain.1 plain.2) laterl
  have free : Waiting.Admits right.tier
      (({ token := symbol kind middle }, left.tree position) :: waiting) := by
    intro w head
    obtain rfl := Option.some.inj head
    rcases rights with less | large
    · exact .inr ⟨n, known, less⟩
    · exact .inl large
  have le : n ≤ right.tier := by omega
  obtain ⟨addedr, lastr, bindsr, wholer, laterr, goesr⟩ :=
    builtr (follows.mono (tierEq ▸ le) (tierEq ▸ loose)) _ depth pending _ outer free inside behind
  refine ⟨addedr ++ [({ token := symbol kind middle }, left.tree position)], lastr, ?_, ?_, laterr, ?_⟩
  · intro w member
    rcases List.mem_append.mp member with member | member
    · exact (bindsr w member).mono le
    · obtain rfl := List.mem_singleton.mp member
      exact ⟨n, known, Nat.le_refl n⟩
  · rw [close_append, wholer]
    rfl
  · rw [goesl, build_operator (show (symbol kind middle).kind.rank?.isSome from rank), closed,
      goesr, List.append_assoc]
    rfl

/-- The tokens of a phrase are built into its tree. -/
theorem builtBefore {p : Phrase} (valid : p.Valid) {rest : List Token} (follows : p.Follows rest) :
    p.BuiltBefore ν rest := by
  induction p generalizing rest with
  | number digits => exact built_number digits follows
  | factorial digits => exact built_factorial valid rest
  | letter name => exact built_letter name follows
  | power name digits => exact built_power name digits rest
  | raised name exponent ih => exact built_raised (fun _ => ih valid.2) rest
  | call kind keyword argument ih => exact built_call valid.1 (fun _ => ih valid.2.2) rest
  | bracket inner ih => exact built_bracket (fun _ => ih valid) rest
  | sign kind operand ih => exact built_sign valid follows (ih valid.2.2)
  | operator kind left right ihl ihr =>
    exact built_operator valid follows (fun _ => ihl valid.2.1) (ihr valid.2.2.1)

/-- The tokens of a phrase whose brackets are not nested too deep denote its tree. -/
theorem ofTokens_tree {p : Phrase} (valid : p.Valid) {finish : Token} (isFinish : finish.kind = .finish)
    (shallow : nesting 0 (groupProducts (p.tokens 0 ++ [finish])) ≤ maxNesting) :
    Tree.ofTokens (groupProducts (p.tokens 0 ++ [finish])) = .ok (p.tree 0 : Tree (Label ν)) := by
  have follows : p.Follows [finish] := by
    refine ⟨finish, [], rfl, .inr (.inl isFinish), ?_⟩
    intro second absurd
    cases absurd
  have alone : spelledOut 0 [] none [finish] = [finish] := by
    rw [spelledOut_finish isFinish, spelledOut]
    rfl
  rw [groupProducts_eq] at shallow ⊢
  obtain ⟨added, last, _, whole, _, goes⟩ :=
    builtBefore valid follows 0 0 [] ([] : List (Waiting (Label ν))) []
    (fun _ absurd => (by cases absurd)) (fun _ member => absurd member List.not_mem_nil) shallow
  rw [Tree.ofTokens, goes, alone, build, if_pos isFinish]
  simp [complete, Spine.tree?, whole]

/-- A valid phrase denotes its tree, unless its brackets are nested too deep. -/
theorem ofText_chars {p : Phrase} (valid : p.Valid) {text : String} (written : text.toList = p.chars)
    (shallow : ∀ tokens, Token.ofText text = .ok tokens → nesting 0 tokens ≤ maxNesting) :
    Tree.ofText text = .ok (p.tree 0 : Tree (Label ν)) := by
  have scanned : Token.ofText text = .ok (groupProducts (p.tokens 0 ++ [⟨.finish, "", some p.width⟩])) := by
    rw [Token.ofText, ← String.ofList_toList (s := text), written, scan_chars valid.spelled]
    rfl
  rw [Tree.ofText, scanned]
  exact ofTokens_tree valid rfl (shallow _ scanned)

end Phrase

end Stepwise
