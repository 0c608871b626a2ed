import Stepwise.Proofs.Phrase.RoundTrip
import Stepwise.Proofs.Tree.Written

/-! Runs over written tokens are how trees are built. Main statement: where a run over the tokens of
a text ends with a tree, the text denotes that tree, unless its brackets are nested too deep. -/
namespace Stepwise

open Token (spelledOut nesting inserted)
open Expression (maxNesting)
open Expression.Builder (isLoneNumber)

variable {ν : Type}

def Slot.held : Slot ν → Option Token
  | .gap _ held => held
  | .full _ => none

namespace Run

variable {frames : List (Frame ν)} {waiting : List (Waiting (Label ν))} {slot : Slot ν}
  {tokens rest : List Token}
  {r : Tree (Label ν)} {keyword : Token}

/-- What a keyword takes starts with a bracket once implicit products are spelled out. -/
theorem argument_opens (run : Run frames waiting (.gap (some keyword) none) tokens r) (depth : Nat)
    (pending : List Nat) :
    ∃ opening more, spelledOut depth pending none tokens = opening :: more ∧ opening.kind = .opening := by
  have term {letter : Token} (isLetter : letter.kind = .letter) (held : Option Token) (after : List Token) :
      ∃ opening more, spelledOut depth pending held (letter :: after) = opening :: more ∧
      opening.kind = .opening := by
    rw [spelledOut, if_pos isLetter]
    exact ⟨_, _, rfl, rfl⟩
  cases run with
  | opening kind => exact ⟨_, _, Token.spelledOut_opening kind, kind⟩
  | coefficient kind isLetter =>
    rw [spelledOut_scaled kind]
    exact term isLetter _ _
  | letter kind | power kind | raised kind => exact term kind _ _

/-- A minus sign is taken for a sign where no number stands alone behind it. -/
theorem not_lone (run : Run frames waiting (.gap none none) tokens r)
    (composite : ¬ StandsAlone tokens) (depth : Nat) (pending : List Nat) :
    isLoneNumber (spelledOut depth pending none tokens) = false := by
  have term {letter : Token} (isLetter : letter.kind = .letter) (held : Option Token) (after : List Token) :
      isLoneNumber (spelledOut depth pending held (letter :: after)) = false := by
    rw [spelledOut, if_pos isLetter]
    exact Phrase.isLoneNumber_other (by decide) _
  cases run with
  | number kind run =>
    obtain ⟨next, after, rfl, behind⟩ := run.behind
    exact Bool.eq_false_iff.mpr fun lone =>
      composite ((isLoneNumber_spelledOut kind behind depth pending after).mp lone)
  | factorial kind =>
    rw [Token.spelledOut_factorial kind]
    exact Phrase.isLoneNumber_other (by simp [kind]) _
  | @factor _ _ _ _ number keyword kind call =>
    have letter : keyword.kind ≠ .letter := fun same => by simp [same, Token.Kind.IsCall] at call
    have other : keyword.kind ≠ .number := fun same => by simp [same, Token.Kind.IsCall] at call
    rw [spelledOut_scaled kind, spelledOut, if_neg letter, if_neg other, if_pos call]
    simp [isLoneNumber, inserted]
  | negative kind =>
    rw [Token.spelledOut_operator (by simp [kind, Token.Kind.rank?])]
    exact Phrase.isLoneNumber_other (by simp [kind]) _
  | sign kind =>
    rw [Token.spelledOut_operator (by rcases kind with h | h <;> simp [h, Token.Kind.rank?])]
    exact Phrase.isLoneNumber_other (by rcases kind with h | h <;> simp [h]) _
  | call kind =>
    rw [Token.spelledOut_call kind]
    exact Phrase.isLoneNumber_other (by rcases kind with h | h | h | h <;> simp [h]) _
  | opening kind =>
    rw [Token.spelledOut_opening kind]
    exact Phrase.isLoneNumber_other (by simp [kind]) _
  | coefficient kind isLetter =>
    rw [spelledOut_scaled kind]
    exact term isLetter _ _
  | letter kind | power kind | raised kind => exact term kind _ _

end Run

/-- The brackets that a run still opens are not nested too deep. -/
def Shallow (frames : List (Frame ν)) (held : Option Token) (tokens : List Token) : Prop :=
  nesting (frames.flatMap Frame.levels).length
    (spelledOut frames.length (Frame.depths frames) held tokens) ≤ maxNesting

namespace Shallow

variable {frames : List (Frame ν)} {waiting : List (Waiting (Label ν))} {call held : Option Token}
  {token : Token}
  {tokens rest : List Token}

/-- A token that is put out as it is, and that is no bracket. -/
theorem behind (shallow : Shallow frames none (token :: rest))
    (put : spelledOut frames.length (Frame.depths frames) none (token :: rest) =
      token :: spelledOut frames.length (Frame.depths frames) none rest)
    (other : token.kind ≠ .opening ∧ token.kind ≠ .closing) : Shallow frames none rest := by
  unfold Shallow at shallow ⊢
  rw [put] at shallow
  exact Nat.le_trans (Token.nesting_other other.1 other.2) shallow

/-- A coefficient is held back. -/
theorem coefficient (shallow : Shallow frames none (token :: rest)) (kind : token.kind = .number) :
    Shallow frames (some token) rest := by
  unfold Shallow at shallow ⊢
  rwa [spelledOut_scaled kind] at shallow

theorem factor {keyword : Token} (shallow : Shallow frames none (token :: keyword :: rest))
    (kind : token.kind = .number) (call : keyword.kind.IsCall) :
    Shallow frames none (keyword :: rest) := by
  have letter : keyword.kind ≠ .letter := fun same => by simp [same, Token.Kind.IsCall] at call
  have other : keyword.kind ≠ .number := fun same => by simp [same, Token.Kind.IsCall] at call
  replace shallow := shallow.coefficient kind
  unfold Shallow at shallow ⊢
  rw [spelledOut, if_neg letter, if_neg other, if_pos call] at shallow
  rw [Token.spelledOut_call call]
  have behind := Nat.le_trans (Token.nesting_other (by simp [kind]) (by simp [kind])) shallow
  exact Nat.le_trans (Token.nesting_other (by simp [inserted]) (by simp [inserted])) behind

theorem operator (shallow : Shallow frames none (token :: rest)) (rank : token.kind.rank?.isSome) :
    Shallow frames none rest := by
  apply shallow.behind (Token.spelledOut_operator rank)
  constructor
  all_goals
    intro same
    simp [same, Token.Kind.rank?] at rank

theorem opening (shallow : Shallow frames none (token :: rest)) (opens : token.kind = .opening) :
    (frames.flatMap Frame.levels).length + 1 ≤ maxNesting ∧
    Shallow ({ waiting, call } :: frames) none rest := by
  unfold Shallow at shallow ⊢
  rw [Token.spelledOut_opening opens] at shallow
  have inner := Nat.le_trans (Token.nesting_opening opens) shallow
  exact ⟨Nat.le_trans (Token.le_nesting ..) inner, inner⟩

theorem closing {frame : Frame ν} (shallow : Shallow (frame :: frames) none (token :: rest))
    (closes : token.kind = .closing) :
    Shallow frames none rest := by
  obtain ⟨enclosing, around, base⟩ := frame
  unfold Shallow at shallow ⊢
  cases base with
  | none =>
    rw [List.length_cons, Frame.depths, if_neg (by simp),
      Token.spelledOut_closing closes Frame.depths_lt] at shallow
    exact Nat.le_trans (Token.nesting_closing closes) shallow
  | some base =>
    rw [List.length_cons, Frame.depths, if_pos (by simp), Token.spelledOut_ending closes] at shallow
    exact Nat.le_trans (Nat.le_trans (Token.nesting_closing rfl) (Token.nesting_closing closes)) shallow

variable {name caret exponent : Token}

theorem letter (shallow : Shallow frames held (name :: rest)) (isLetter : name.kind = .letter)
    (number : ∀ coefficient ∈ held, coefficient.kind = .number) (bare : ¬ TakesExponent rest) :
    (frames.flatMap Frame.levels).length + 1 ≤ maxNesting ∧ Shallow frames none rest := by
  unfold Shallow at shallow ⊢
  rw [spelledOut, if_pos isLetter] at shallow
  simp only [takenExponent_bare bare, Token.unitExponent, List.append_assoc, List.cons_append,
    List.nil_append] at shallow
  obtain ⟨room, later⟩ := Token.nesting_term (frames.flatMap Frame.levels).length
    (held.getD (inserted .number "1")) name (inserted .power "^") (inserted .number "1")
    (spelledOut frames.length (Frame.depths frames) none rest) (BuiltInto.number_held number)
    isLetter rfl rfl
  exact ⟨Nat.le_trans room shallow, Nat.le_trans later shallow⟩

theorem power (shallow : Shallow frames held (name :: caret :: exponent :: rest))
    (isLetter : name.kind = .letter) (number : ∀ coefficient ∈ held, coefficient.kind = .number)
    (isCaret : caret.kind = .power) (digits : exponent.kind = .number) :
    (frames.flatMap Frame.levels).length + 1 ≤ maxNesting ∧ Shallow frames none rest := by
  unfold Shallow at shallow ⊢
  rw [spelledOut, if_pos isLetter] at shallow
  simp only [Token.takenExponent, isCaret, digits, and_self, if_true, List.append_assoc,
    List.cons_append, List.nil_append] at shallow
  obtain ⟨room, later⟩ :=
    Token.nesting_term (frames.flatMap Frame.levels).length (held.getD (inserted .number "1"))
    name caret exponent (spelledOut frames.length (Frame.depths frames) none rest)
    (BuiltInto.number_held number) isLetter isCaret digits
  exact ⟨Nat.le_trans room shallow, Nat.le_trans later shallow⟩

theorem raised {bracket : Token} (shallow : Shallow frames held (name :: caret :: bracket :: rest))
    (isLetter : name.kind = .letter) (number : ∀ coefficient ∈ held, coefficient.kind = .number)
    (isCaret : caret.kind = .power) (opens : bracket.kind = .opening) :
    (frames.flatMap Frame.levels).length + 2 ≤ maxNesting ∧
      Shallow ({ waiting, call, base := some (held.getD (inserted .number "1"), name, caret) } ::
      frames) none rest := by
  unfold Shallow at shallow ⊢
  rw [spelledOut, if_pos isLetter] at shallow
  simp only [Token.takenExponent, isCaret, opens, reduceCtorEq,
    and_false, if_false, and_self, if_true, List.append_assoc, List.cons_append, List.nil_append,
    Token.spelledOut_opening opens] at shallow
  have inner := Nat.le_trans
    (Token.nesting_raised (frames.flatMap Frame.levels).length
    _ _ _ _ _ (BuiltInto.number_held number) isLetter isCaret opens) shallow
  exact ⟨Nat.le_trans (Token.le_nesting ..) inner, inner⟩

end Shallow

namespace BuiltInto

variable {frames : List (Frame ν)} {waiting : List (Waiting (Label ν))} {x r : Tree (Label ν)}
  {token next : Token}
  {rest after : List Token}

theorem finish (kind : token.kind = .finish) :
    BuiltInto [] waiting (.full x) none [token] (Waiting.close waiting x) := by
  unfold BuiltInto
  rw [Token.spelledOut_finish kind, Draft.build, if_pos kind]
  rfl

theorem number_iff (kind : token.kind = .number) (behind : next.kind.IsBehind) :
    BuiltInto frames waiting (.gap none none) none (token :: next :: after) r ↔
      BuiltInto frames waiting (.full (.leaf { token })) none (next :: after) r := by
  unfold BuiltInto
  rw [Token.spelledOut_number kind behind]
  exact Eq.congr_left (Draft.build_operand (.inl kind))

theorem factorial_iff (kind : token.kind = .factorial) :
    BuiltInto frames waiting (.gap none none) none (token :: rest) r ↔
      BuiltInto frames waiting (.full (.ofFactorial token)) none rest r := by
  unfold BuiltInto
  rw [Token.spelledOut_factorial kind]
  exact Eq.congr_left (Draft.build_ofFactorial kind)

/-- A number in front of a keyword is a factor that waits for the call. -/
theorem factor_iff {keyword : Token} (kind : token.kind = .number) (call : keyword.kind.IsCall) :
    BuiltInto frames waiting (.gap none none) none (token :: keyword :: rest) r ↔
      BuiltInto frames (({ token := .inserted .times "*" }, .leaf { token }) :: waiting) (.gap none none) none
        (keyword :: rest) r := by
  have letter : keyword.kind ≠ .letter := fun same => by simp [same, Token.Kind.IsCall] at call
  have other : keyword.kind ≠ .number := fun same => by simp [same, Token.Kind.IsCall] at call
  have stays : Draft.yields (ν := ν) (inserted .times "*") = fun _ => false := rfl
  unfold BuiltInto
  rw [spelledOut_scaled kind, spelledOut, if_neg letter, if_neg other, if_pos call,
    Token.spelledOut_call call]
  simp only [Slot.spine, Option.toList_some, Option.map_some, List.cons_append, List.nil_append]
  rw [Draft.build_operand (.inl kind), Draft.build_operator rfl, stays,
    Waiting.closeWhile_stop fun _ _ => rfl]

theorem negative_iff {minus : Token} (kind : minus.kind = .minus) (alone : StandsAlone (token :: rest)) :
    BuiltInto frames waiting (.gap none none) none (minus :: token :: rest) r ↔
      BuiltInto frames waiting
      (.full (.leaf { token := ⟨.number, "-" ++ token.text, minus.position⟩ })) none rest r := by
  cases rest with
  | nil => exact alone.elim
  | cons next after =>
    obtain ⟨digits, behind, _⟩ := id alone
    have lone : isLoneNumber
      (spelledOut frames.length (Frame.depths frames) none (token :: next :: after)) := alone.lone
    unfold BuiltInto
    rw [Token.spelledOut_operator (by simp [kind, Token.Kind.rank?])]
    rw [Token.spelledOut_number digits behind] at lone ⊢
    exact Eq.congr_left (Draft.build_negative kind lone)

theorem sign_iff (kind : token.kind = .plus ∨ token.kind = .minus)
    (composite : token.kind = .minus →
      isLoneNumber (spelledOut frames.length (Frame.depths frames) none rest) = false) :
    BuiltInto frames waiting (.gap none none) none (token :: rest) r ↔
      BuiltInto frames (({ token, unary := true }, .leaf { token := .inserted .number "0" }) ::
      waiting) (.gap none none) none
        rest r := by
  unfold BuiltInto
  rw [Token.spelledOut_operator (by rcases kind with h | h <;> simp [h, Token.Kind.rank?])]
  exact Eq.congr_left (Draft.build_sign kind composite)

theorem call_iff (call : token.kind.IsCall) (argument : ∀ depth pending, ∃ opening more,
      spelledOut depth pending none rest = opening :: more ∧ opening.kind = .opening) :
    BuiltInto frames waiting (.gap none none) none (token :: rest) r ↔
      BuiltInto frames waiting (.gap (some token) none) none rest r := by
  obtain ⟨opening, more, first, opens⟩ := argument frames.length (Frame.depths frames)
  unfold BuiltInto
  rw [Token.spelledOut_call call, first]
  exact Eq.congr_left (Draft.build_call call opens)

end BuiltInto

namespace Run

variable {frames : List (Frame ν)} {waiting : List (Waiting (Label ν))} {slot : Slot ν} {tokens : List Token}
  {r : Tree (Label ν)}

/-- What a run ends with is built, unless brackets are nested too deep. -/
theorem builtInto (run : Run frames waiting slot tokens r)
    (number : ∀ coefficient ∈ slot.held, coefficient.kind = .number)
    (shallow : Shallow frames slot.held tokens) :
    BuiltInto frames waiting slot slot.held tokens r := by
  have nothing : ∀ coefficient ∈ (none : Option Token), coefficient.kind = .number :=
    fun _ absurd => (by cases absurd)
  induction run with
  | finish kind => exact .finish kind
  | number kind run ih =>
    obtain ⟨next, after, rfl, behind⟩ := run.behind
    have later := shallow.behind (Token.spelledOut_number kind behind) (by simp [kind])
    exact (BuiltInto.number_iff kind behind).mpr (ih nothing later)
  | factorial kind run ih =>
    have later := shallow.behind (Token.spelledOut_factorial kind) (by simp [kind])
    exact (BuiltInto.factorial_iff kind).mpr (ih nothing later)
  | factor kind call run ih =>
    exact (BuiltInto.factor_iff kind call).mpr (ih nothing (shallow.factor kind call))
  | negative kind alone run ih =>
    have digits := shallow.operator (by simp [kind, Token.Kind.rank?])
    obtain ⟨next, after, rfl, behind⟩ := run.behind
    have later := digits.behind (Token.spelledOut_number alone.digits behind) (by simp [alone.digits])
    exact (BuiltInto.negative_iff kind alone).mpr (ih nothing later)
  | sign kind composite run ih =>
    have later := shallow.operator (by rcases kind with h | h <;> simp [h, Token.Kind.rank?])
    exact (BuiltInto.sign_iff kind fun minus => run.not_lone (composite minus) _ _).mpr (ih nothing later)
  | operator rank _ run ih => exact (BuiltInto.operator_iff rank).mpr (ih nothing (shallow.operator rank))
  | call kind run ih =>
    have later := shallow.behind (Token.spelledOut_call kind) (by rcases kind with h | h | h | h <;> simp [h])
    exact (BuiltInto.call_iff kind run.argument_opens).mpr (ih nothing later)
  | opening kind run ih =>
    obtain ⟨room, later⟩ := shallow.opening kind
    exact (BuiltInto.opening_iff kind room).mpr (ih nothing later)
  | closing kind run ih => exact (BuiltInto.closing_iff kind).mpr (ih nothing (shallow.closing kind))
  | coefficient kind isLetter run ih =>
    have later := ih (fun _ same => Option.some.inj same ▸ kind) (shallow.coefficient kind)
    unfold BuiltInto at later ⊢
    rwa [Slot.held, spelledOut_scaled kind]
  | letter kind bare run ih =>
    obtain ⟨room, later⟩ := shallow.letter kind number bare
    exact (BuiltInto.letter_iff kind number bare room).mpr (ih nothing later)
  | power kind isCaret digits run ih =>
    obtain ⟨room, later⟩ := shallow.power kind number isCaret digits
    exact (BuiltInto.power_iff kind number isCaret digits room).mpr (ih nothing later)
  | raised kind isCaret opens run ih =>
    obtain ⟨room, later⟩ := shallow.raised kind number isCaret opens
    exact (BuiltInto.raised_iff kind number isCaret opens room).mpr (ih nothing later)

/-- A text denotes what a run over its tokens ends with. -/
theorem ofText {text : String} (run : Run [] [] (.gap none none) tokens r)
    (scanned : Token.scan text = .ok tokens) (shallow : Token.Shallow text) :
    Tree.ofText text = .ok r := by
  have read : Token.ofText text = .ok (spelledOut 0 [] none tokens) := by
    rw [Token.ofText, scanned, ← Token.groupProducts_eq]
    rfl
  rw [Tree.ofText, read]
  exact run.builtInto (fun _ absurd => (by cases absurd)) (shallow _ read)

end Run

end Stepwise
