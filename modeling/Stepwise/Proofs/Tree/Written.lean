import Stepwise.Proofs.Phrase.Build
import Stepwise.Proofs.Token.Ending
import Stepwise.Proofs.Tree.Placing

/-! Building a tree from the tokens as they are written, where a variable term is one operand. Main
statement: what is built once the implicit products are spelled out is built from the written tokens
in such a run. -/
namespace Stepwise

open Token (spelledOut takenExponent endedExponent openedTerm unitExponent inserted)
open Expression (maxNesting)
open Expression.Builder (isLoneNumber)

/-- What a written bracket interrupts: the operators that wait for it, the keyword in front of it,
and the coefficient, the letter and the caret whose exponent it holds. -/
structure Frame (ν : Type) where
  waiting : List (Waiting (Label ν))
  call : Option Token := none
  base : Option (Token × Token × Token) := none

/-- Where a level stands: in front of an operand, behind a keyword and a coefficient if there are
such, or behind one. -/
inductive Slot (ν : Type) where
  | gap (call held : Option Token)
  | full (x : Tree (Label ν))

variable {ν : Type}

namespace Frame

def fill (frame : Frame ν) (x : Tree (Label ν)) : Tree (Label ν) :=
  match frame.base with
  | none => x.applyCall frame.call
  | some (coefficient, letter, caret) => (Tree.ofLetter coefficient letter caret x).applyCall frame.call

def levels (frame : Frame ν) : List (Spine (Label ν)) :=
  match frame.base with
  | none => [{ waiting := frame.waiting, call := frame.call }]
  | some (coefficient, letter, caret) =>
    [{ waiting := [({ token := caret }, .leaf { token := letter }),
        ({ token := .inserted .times "*" }, .leaf { token := coefficient })] },
      { waiting := frame.waiting, call := frame.call }]

def depths : List (Frame ν) → List Nat
  | [] => []
  | frame :: outer => if frame.base.isSome then outer.length :: depths outer else depths outer

theorem depths_lt {frames : List (Frame ν)} : ∀ depth ∈ depths frames, depth < frames.length := by
  induction frames with
  | nil => exact fun _ absurd => (by cases absurd)
  | cons frame outer ih =>
    intro depth member
    rw [depths] at member
    split at member
    · rcases List.mem_cons.mp member with rfl | member
      · exact Nat.lt_succ_self _
      · exact Nat.lt_succ_of_lt (ih depth member)
    · exact Nat.lt_succ_of_lt (ih depth member)

theorem levels_ne_nil (frame : Frame ν) : frame.levels ≠ [] := by
  unfold levels
  split <;> simp

end Frame

/-- A caret that makes what stands behind it the exponent of the letter before it. -/
def TakesExponent : List Token → Prop
  | caret :: exponent :: _ => caret.kind = .power ∧ (exponent.kind = .number ∨ exponent.kind = .opening)
  | _ => False

/-- A number that a minus sign in front of it makes negative. -/
def StandsAlone : List Token → Prop
  | number :: next :: _ =>
    number.kind = .number ∧ next.kind.IsBehind ∧ next.kind ≠ .times ∧ next.kind ≠ .divide ∧ next.kind ≠ .power
  | _ => False

theorem StandsAlone.digits {number : Token} {rest : List Token}
    (alone : StandsAlone (number :: rest)) : number.kind = .number := by
  cases rest with
  | nil => exact alone.elim
  | cons next after => exact alone.1

/-- A run over the written tokens that ends with a tree. -/
inductive Run : List (Frame ν) → List (Waiting (Label ν)) → Slot ν → List Token → Tree (Label ν) → Prop
  | finish {token : Token} (kind : token.kind = .finish) :
      Run [] waiting (.full x) [token] (Waiting.close waiting x)
  | number {token : Token} (kind : token.kind = .number)
      (run : Run frames waiting (.full (.leaf { token })) rest r) :
      Run frames waiting (.gap none none) (token :: rest) r
  | factorial {token : Token} (kind : token.kind = .factorial)
      (run : Run frames waiting (.full (.ofFactorial token)) rest r) :
      Run frames waiting (.gap none none) (token :: rest) r
  | factor {number keyword : Token} (kind : number.kind = .number) (call : keyword.kind.IsCall)
      (run : Run frames (({ token := .inserted .times "*" }, .leaf { token := number }) :: waiting)
      (.gap none none)
        (keyword :: rest) r) :
      Run frames waiting (.gap none none) (number :: keyword :: rest) r
  | negative {minus number : Token} (kind : minus.kind = .minus) (alone : StandsAlone (number :: rest))
      (run : Run frames waiting
      (.full (.leaf { token := ⟨.number, "-" ++ number.text, minus.position⟩ })) rest r) :
      Run frames waiting (.gap none none) (minus :: number :: rest) r
  | sign {token : Token} (kind : token.kind = .plus ∨ token.kind = .minus)
      (composite : token.kind = .minus → ¬ StandsAlone rest)
      (run : Run frames (({ token, unary := true }, .leaf { token := .inserted .number "0" }) ::
      waiting) (.gap none none)
        rest r) :
      Run frames waiting (.gap none none) (token :: rest) r
  | operator {token : Token} (kind : token.kind.rank?.isSome) (written : token.isInserted = false)
      (run : Run frames (({ token }, (Waiting.closeWhile (Draft.yields token) waiting x).2) ::
        (Waiting.closeWhile (Draft.yields token) waiting x).1) (.gap none none) rest r) :
      Run frames waiting (.full x) (token :: rest) r
  | call {token : Token} (kind : token.kind.IsCall)
      (run : Run frames waiting (.gap (some token) none) rest r) :
      Run frames waiting (.gap none none) (token :: rest) r
  | opening {token : Token} (kind : token.kind = .opening)
      (run : Run ({ waiting, call } :: frames) [] (.gap none none) rest r) :
      Run frames waiting (.gap call none) (token :: rest) r
  | closing {token : Token} (kind : token.kind = .closing)
      (run : Run frames frame.waiting (.full (frame.fill (Waiting.close waiting x))) rest r) :
      Run (frame :: frames) waiting (.full x) (token :: rest) r
  | coefficient {number letter : Token} (kind : number.kind = .number) (isLetter : letter.kind = .letter)
      (run : Run frames waiting (.gap call (some number)) (letter :: rest) r) :
      Run frames waiting (.gap call none) (number :: letter :: rest) r
  | letter {token : Token} {held : Option Token} (kind : token.kind = .letter) (bare : ¬ TakesExponent rest)
      (run : Run frames waiting
      (.full (Tree.applyCall call (.ofLetter (held.getD (.inserted .number "1")) token
        (.inserted .power "^") (.leaf { token := .inserted .number "1" })))) rest r) :
      Run frames waiting (.gap call held) (token :: rest) r
  | power {token caret exponent : Token} {held : Option Token} (kind : token.kind = .letter)
      (isCaret : caret.kind = .power)
      (digits : exponent.kind = .number)
      (run : Run frames waiting
      (.full (Tree.applyCall call (.ofLetter (held.getD (.inserted .number "1")) token caret
        (.leaf { token := exponent })))) rest r) :
      Run frames waiting (.gap call held) (token :: caret :: exponent :: rest) r
  | raised {token caret opening : Token} {held : Option Token} (kind : token.kind = .letter)
      (isCaret : caret.kind = .power) (opens : opening.kind = .opening)
      (run : Run
        ({ waiting, call, base := some (held.getD (.inserted .number "1"), token, caret) } :: frames)
        [] (.gap none none) rest r) :
      Run frames waiting (.gap call held) (token :: caret :: opening :: rest) r

def Slot.spine (slot : Slot ν) (waiting : List (Waiting (Label ν))) : Spine (Label ν) :=
  match slot with
  | .gap call _ => { waiting, call }
  | .full x => { waiting, last := some x }

/-- What is built once the implicit products are spelled out. -/
def BuiltInto (frames : List (Frame ν)) (waiting : List (Waiting (Label ν))) (slot : Slot ν)
    (held : Option Token) (tokens : List Token) (r : Tree (Label ν)) : Prop :=
  Draft.build ⟨slot.spine waiting, frames.flatMap Frame.levels⟩
    (spelledOut frames.length (Frame.depths frames) held tokens) =
    .ok r

section Steps
variable {frames : List (Frame ν)} {waiting : List (Waiting (Label ν))} {call held : Option Token}
  {x r : Tree (Label ν)}
  {token : Token} {rest : List Token} {outer : List (Spine (Label ν))} {depth : Nat} {pending : List Nat}

/-- A token that starts no implicit product is the first that is put out. -/
theorem spelledOut_first (depth : Nat) (pending : List Nat) (letter : token.kind ≠ .letter)
    (number : token.kind ≠ .number) (rest : List Token) :
    ∃ more, spelledOut depth pending none (token :: rest) = token :: more := by
  rw [spelledOut, if_neg letter, if_neg number]
  repeat' split
  all_goals exact ⟨_, rfl⟩

/-- A number in front of neither a letter nor a keyword is an operand. -/
theorem spelledOut_alone (number : token.kind = .number)
    (alone : ∀ next after, rest = next :: after → next.kind ≠ .letter ∧ ¬ next.kind.IsCall) :
    spelledOut depth pending none (token :: rest) = token :: spelledOut depth pending none rest := by
  rw [spelledOut, if_neg (by simp [number]), if_pos number]
  cases rest with
  | nil => simp [spelledOut]
  | cons next after =>
    obtain ⟨letter, keyword⟩ := alone next after rfl
    rw [spelledOut, spelledOut, if_neg letter, if_neg letter, if_neg keyword, if_neg keyword]
    repeat' split
    all_goals rfl

theorem spelledOut_scaled (number : token.kind = .number) :
    spelledOut depth pending none (token :: rest) = spelledOut depth pending (some token) rest := by
  rw [spelledOut, if_neg (by simp [number]), if_pos number]
  rfl

/-- A number that is no coefficient of a letter is put out as it is. -/
theorem spelledOut_number_first (depth : Nat) (pending : List Nat) (number : token.kind = .number)
    (unscaled : ¬ ∃ next after, rest = next :: after ∧ next.kind = .letter) :
    ∃ more, spelledOut depth pending none (token :: rest) = token :: more := by
  rw [spelledOut_scaled number]
  cases rest with
  | nil => exact ⟨[], by rw [spelledOut]; rfl⟩
  | cons next after =>
    rw [spelledOut, if_neg fun letter => unscaled ⟨next, after, rfl, letter⟩]
    repeat' split
    all_goals exact ⟨_, rfl⟩

/-- What cannot stand behind an operand cannot do so once implicit products are spelled out. -/
theorem spelledOut_not_behind (depth : Nat) (pending : List Nat) (other : ¬ token.kind.IsBehind)
    (rest : List Token) :
    ∃ first more, spelledOut depth pending none (token :: rest) = first :: more ∧ ¬ first.kind.IsBehind := by
  have bracket : ¬ (inserted .opening "(").kind.IsBehind := by
    simp [inserted, Token.Kind.IsBehind, Token.Kind.rank?]
  by_cases letter : token.kind = .letter
  · rw [spelledOut, if_pos letter]
    exact ⟨_, _, rfl, bracket⟩
  · by_cases number : token.kind = .number
    · by_cases scaled : ∃ next after, rest = next :: after ∧ next.kind = .letter
      · obtain ⟨next, after, rfl, isLetter⟩ := scaled
        rw [spelledOut_scaled number, spelledOut, if_pos isLetter]
        exact ⟨_, _, rfl, bracket⟩
      · obtain ⟨more, first⟩ := spelledOut_number_first depth pending number scaled
        exact ⟨token, more, first, other⟩
    · obtain ⟨more, first⟩ := spelledOut_first depth pending letter number rest
      exact ⟨token, more, first, other⟩

theorem takenExponent_bare (bare : ¬ TakesExponent rest) :
    takenExponent depth pending rest = (unitExponent, pending, rest) := by
  rcases rest with _ | ⟨caret, _ | ⟨exponent, after⟩⟩
  · rfl
  · rfl
  · rw [TakesExponent, not_and_or, not_or] at bare
    have number : ¬ (caret.kind = .power ∧ exponent.kind = .number) := by tauto
    have opening : ¬ (caret.kind = .power ∧ exponent.kind = .opening) := by tauto
    rw [takenExponent, if_neg number, if_neg opening]

theorem build_opened (opens : token.kind = .opening)
    (built : Draft.build ⟨{ waiting, call }, outer⟩ (token :: rest) = .ok r) :
    outer.length + 1 ≤ maxNesting ∧ Draft.build ⟨{}, { waiting, call } :: outer⟩ rest = .ok r := by
  obtain ⟨later, taken, placed, built⟩ := Draft.build_placed (by simp [opens]) built
  cases placed with
  | opening _ _ room => exact ⟨room, built⟩
  | operand _ kind => rcases kind with h | h | h <;> simp [opens] at h
  | sign _ kind => rcases kind with h | h <;> simp [opens] at h
  | factorial _ kind | negative _ kind | closing kind => simp [opens] at kind
  | operator _ kind => simp [opens, Token.Kind.rank?] at kind
  | call _ kind => simp [opens, Token.Kind.IsCall] at kind

namespace BuiltInto

theorem opening_iff (opens : token.kind = .opening)
    (room : (frames.flatMap Frame.levels).length + 1 ≤ maxNesting) :
    BuiltInto frames waiting (.gap call none) none (token :: rest) r ↔
      BuiltInto ({ waiting, call } :: frames) [] (.gap none none) none rest r := by
  unfold BuiltInto
  rw [Token.spelledOut_opening opens]
  exact Eq.congr_left (Draft.build_opening opens room)

theorem opening (opens : token.kind = .opening)
    (built : BuiltInto frames waiting (.gap call none) none (token :: rest) r) :
    BuiltInto ({ waiting, call } :: frames) [] (.gap none none) none rest r := by
  refine (opening_iff opens ?_).mp built
  unfold BuiltInto at built
  rw [Token.spelledOut_opening opens] at built
  exact (build_opened opens built).1

theorem operator_iff (rank : token.kind.rank?.isSome) :
    BuiltInto frames waiting (.full x) none (token :: rest) r ↔
      BuiltInto frames (({ token }, (Waiting.closeWhile (Draft.yields token) waiting x).2) ::
        (Waiting.closeWhile (Draft.yields token) waiting x).1) (.gap none none) none rest r := by
  unfold BuiltInto
  rw [Token.spelledOut_operator rank]
  exact Eq.congr_left (Draft.build_operator rank)

theorem closing_iff {frame : Frame ν} (closes : token.kind = .closing) :
    BuiltInto (frame :: frames) waiting (.full x) none (token :: rest) r ↔
      BuiltInto frames frame.waiting (.full (frame.fill (Waiting.close waiting x))) none rest r := by
  obtain ⟨enclosing, around, base⟩ := frame
  unfold BuiltInto
  cases base with
  | none =>
    rw [List.length_cons, Frame.depths, if_neg (by simp), Token.spelledOut_closing closes Frame.depths_lt]
    exact Eq.congr_left (Draft.build_closing closes)
  | some base =>
    obtain ⟨coefficient, letter, caret⟩ := base
    rw [List.length_cons, Frame.depths, if_pos (by simp), Token.spelledOut_ending closes]
    exact Eq.congr_left ((Draft.build_closing closes).trans (Draft.build_closing rfl))

variable {caret exponent name : Token}

theorem number_held (number : ∀ coefficient ∈ held, coefficient.kind = .number) :
    (held.getD (inserted .number "1")).kind = .number := by
  cases held with
  | none => rfl
  | some coefficient => exact number coefficient rfl

/-- The bracket of a variable term is opened before anything else of it. -/
theorem room (isLetter : name.kind = .letter)
    (built : BuiltInto frames waiting (.gap call held) held (name :: rest) r) :
    (frames.flatMap Frame.levels).length + 1 ≤ maxNesting := by
  unfold BuiltInto at built
  rw [spelledOut, if_pos isLetter, List.append_assoc] at built
  exact (build_opened rfl built).1

/-- A letter without an exponent. -/
theorem letter_iff (isLetter : name.kind = .letter)
    (number : ∀ coefficient ∈ held, coefficient.kind = .number) (bare : ¬ TakesExponent rest)
    (room : (frames.flatMap Frame.levels).length + 1 ≤ maxNesting) :
    BuiltInto frames waiting (.gap call held) held (name :: rest) r ↔
      BuiltInto frames waiting (.full (Tree.applyCall call (.ofLetter (held.getD (inserted .number "1")) name
        (inserted .power "^") (.leaf { token := inserted .number "1" })))) none rest r := by
  unfold BuiltInto
  rw [spelledOut, if_pos isLetter]
  simp only [takenExponent_bare bare, unitExponent, List.append_assoc, List.cons_append, List.nil_append]
  exact Eq.congr_left (Draft.build_term (number_held number) isLetter rfl rfl room)

/-- A letter with a number for its exponent. -/
theorem power_iff (isLetter : name.kind = .letter) (number : ∀ coefficient ∈ held, coefficient.kind = .number)
    (isCaret : caret.kind = .power) (digits : exponent.kind = .number)
    (room : (frames.flatMap Frame.levels).length + 1 ≤ maxNesting) :
    BuiltInto frames waiting (.gap call held) held (name :: caret :: exponent :: rest) r ↔
      BuiltInto frames waiting
      (.full (Tree.applyCall call (.ofLetter (held.getD (inserted .number "1")) name caret
        (.leaf { token := exponent })))) none rest r := by
  unfold BuiltInto
  rw [spelledOut, if_pos isLetter]
  simp only [takenExponent, isCaret, digits, and_self, if_true, List.append_assoc, List.cons_append,
    List.nil_append]
  exact Eq.congr_left (Draft.build_term (number_held number) isLetter isCaret digits room)

/-- A letter with an exponent in brackets. -/
theorem raised_iff {bracket : Token}
    (isLetter : name.kind = .letter) (number : ∀ coefficient ∈ held, coefficient.kind = .number)
    (isCaret : caret.kind = .power) (opens : bracket.kind = .opening)
    (room : (frames.flatMap Frame.levels).length + 2 ≤ maxNesting) :
    BuiltInto frames waiting (.gap call held) held (name :: caret :: bracket :: rest) r ↔
      BuiltInto ({ waiting, call, base := some (held.getD (inserted .number "1"), name, caret) } :: frames) []
        (.gap none none) none rest r := by
  unfold BuiltInto
  rw [spelledOut, if_pos isLetter]
  simp only [takenExponent, isCaret, opens, reduceCtorEq, and_false, if_false, and_self, if_true,
    List.append_assoc, List.cons_append, List.nil_append, Token.spelledOut_opening opens]
  exact Eq.congr_left
    ((Draft.build_openedTerm (number_held number) isLetter isCaret (Nat.le_of_succ_le room)).trans
    (Draft.build_opening opens room))

/-- Both brackets of a variable term with an exponent in brackets are opened. -/
theorem room_raised {bracket : Token} (isLetter : name.kind = .letter)
    (number : ∀ coefficient ∈ held, coefficient.kind = .number)
    (isCaret : caret.kind = .power) (opens : bracket.kind = .opening)
    (built : BuiltInto frames waiting (.gap call held) held (name :: caret :: bracket :: rest) r) :
    (frames.flatMap Frame.levels).length + 2 ≤ maxNesting := by
  have room := built.room isLetter
  unfold BuiltInto at built
  rw [spelledOut, if_pos isLetter] at built
  simp only [takenExponent, isCaret, opens, reduceCtorEq, and_false, if_false, and_self, if_true,
    List.append_assoc, List.cons_append, List.nil_append, Token.spelledOut_opening opens] at built
  exact (build_opened opens
    ((Draft.build_openedTerm (number_held number) isLetter isCaret room).symm.trans built)).1

end BuiltInto

structure Runs (ν : Type) (tokens : List Token) : Prop where
  gap : ∀ {frames : List (Frame ν)} {waiting : List (Waiting (Label ν))} {r : Tree (Label ν)},
    BuiltInto frames waiting (.gap none none) none tokens r → Run frames waiting (.gap none none) tokens r
  full : ∀ {frames : List (Frame ν)} {waiting : List (Waiting (Label ν))} {x r : Tree (Label ν)},
    BuiltInto frames waiting (.full x) none tokens r → Run frames waiting (.full x) tokens r

def RunsLater (ν : Type) (tokens : List Token) : Prop :=
  ∀ later, later <:+ tokens → Token.Ended later → Runs ν later

theorem RunsLater.behind (runs : RunsLater ν (token :: rest)) : RunsLater ν rest :=
  fun later suffix => runs later (suffix.trans (List.suffix_cons ..))

theorem RunsLater.here (runs : RunsLater ν rest) (ended : Token.Ended rest) : Runs ν rest :=
  runs rest (List.suffix_refl _) ended

/-- A variable term is one step, or opens the bracket of its exponent. -/
theorem run_term (runs : RunsLater ν rest) (ended : Token.Ended rest) (isLetter : token.kind = .letter)
    (number : ∀ coefficient ∈ held, coefficient.kind = .number)
    (built : BuiltInto frames waiting (.gap call held) held (token :: rest) r) :
    Run frames waiting (.gap call held) (token :: rest) r := by
  by_cases takes : TakesExponent rest
  · rcases rest with _ | ⟨caret, _ | ⟨exponent, after⟩⟩
    · exact takes.elim
    · exact takes.elim
    · obtain ⟨isCaret, digits | opens⟩ := takes
      · have later := (ended.behind (by simp [isCaret])).behind (by simp [digits])
        exact .power isLetter isCaret digits ((runs.behind.behind.here later).full
          ((BuiltInto.power_iff isLetter number isCaret digits (built.room isLetter)).mp built))
      · have later := (ended.behind (by simp [isCaret])).behind (by simp [opens])
        exact .raised isLetter isCaret opens ((runs.behind.behind.here later).gap
          ((BuiltInto.raised_iff isLetter number isCaret opens
          (built.room_raised isLetter number isCaret opens)).mp built))
  · exact .letter isLetter takes ((runs.here ended).full
      ((BuiltInto.letter_iff isLetter number takes (built.room isLetter)).mp built))

/-- Behind a keyword there is a bracket or a variable term. -/
theorem run_argument (runs : RunsLater ν rest) (ended : Token.Ended (token :: rest))
    (built : BuiltInto frames waiting (.gap call none) none (token :: rest) r)
    (bracket : ∃ opening more, spelledOut frames.length (Frame.depths frames) none (token :: rest) =
      opening :: more ∧ opening.kind = .opening) :
    Run frames waiting (.gap call none) (token :: rest) r := by
  obtain ⟨opening, more, first, opens⟩ := bracket
  by_cases isLetter : token.kind = .letter
  · exact run_term runs (ended.behind (by simp [isLetter])) isLetter (fun _ absurd => (by cases absurd)) built
  · by_cases isNumber : token.kind = .number
    · by_cases scaled : ∃ name after, rest = name :: after ∧ name.kind = .letter
      · obtain ⟨name, after, rfl, isLetter⟩ := scaled
        have later := (ended.behind (by simp [isNumber])).behind (by simp [isLetter])
        have here : BuiltInto frames waiting (.gap call (some token)) (some token) (name :: after) r := by
          unfold BuiltInto at built
          rwa [spelledOut_scaled isNumber] at built
        refine .coefficient isNumber isLetter
          (run_term runs.behind later isLetter (fun number same => ?_) here)
        exact Option.some.inj same ▸ isNumber
      · obtain ⟨more', first'⟩ := spelledOut_number_first frames.length (Frame.depths frames) isNumber scaled
        obtain rfl := (List.cons.inj (first'.symm.trans first)).1
        simp [isNumber] at opens
    · obtain ⟨more', first'⟩ := spelledOut_first frames.length (Frame.depths frames) isLetter isNumber rest
      obtain rfl := (List.cons.inj (first'.symm.trans first)).1
      exact .opening opens ((runs.here (ended.behind (by simp [opens]))).gap (built.opening opens))

/-- Behind an operand there is an operator, a bracket that closes, or the end of the text. -/
theorem run_full (runs : RunsLater ν rest) (ended : Token.Ended (token :: rest))
    (written : token.isInserted = false)
    (built : BuiltInto frames waiting (.full x) none (token :: rest) r) :
    Run frames waiting (.full x) (token :: rest) r := by
  by_cases behind : token.kind.IsBehind
  · rcases behind with rank | closes | finish
    · have other : token.kind ≠ .finish := fun same => by simp [same, Token.Kind.rank?] at rank
      exact .operator rank written
        ((runs.here (ended.behind other)).gap ((BuiltInto.operator_iff rank).mp built))
    · cases frames with
      | nil =>
        unfold BuiltInto at built
        have letter : token.kind ≠ .letter := by simp [closes]
        obtain ⟨more, first⟩ := spelledOut_first 0 [] letter (by simp [closes]) rest
        rw [List.length_nil, Frame.depths, first] at built
        obtain ⟨later, taken, placed, -⟩ := Draft.build_placed (by simp [closes]) built
        cases placed with
        | closing _ around => cases around
        | operator _ rank => simp [closes, Token.Kind.rank?] at rank
        | operand awaiting | factorial awaiting | negative awaiting | sign awaiting
        | opening awaiting | call awaiting =>
          cases awaiting
      | cons frame frames =>
        exact .closing closes ((runs.here (ended.behind (by simp [closes]))).full
          ((BuiltInto.closing_iff closes).mp built))
    · unfold BuiltInto at built
      rw [Token.spelledOut_finish finish] at built
      obtain ⟨outside, whole⟩ := Draft.build_finished finish built
      have empty : frames = [] := by
        cases frames with
        | nil => rfl
        | cons frame frames =>
          rw [List.flatMap_cons, List.append_eq_nil_iff] at outside
          exact absurd outside.1 frame.levels_ne_nil
      obtain rfl := Option.some.inj whole
      obtain rfl := ended.last finish
      subst empty
      exact .finish finish
  · obtain ⟨first, more, same, other⟩ := spelledOut_not_behind frames.length (Frame.depths frames) behind rest
    unfold BuiltInto at built
    rw [same] at built
    obtain ⟨later, taken, placed, -⟩ := Draft.build_placed (fun finish => other (.inr (.inr finish))) built
    rcases placed.behind rfl with rank | closes
    · exact absurd (.inl rank) other
    · exact absurd (.inr (.inl closes)) other

/-- A number is a coefficient, a factor of a call, or an operand. -/
theorem run_number (runs : RunsLater ν rest) (ended : Token.Ended rest) (isNumber : token.kind = .number)
    (built : BuiltInto frames waiting (.gap none none) none (token :: rest) r) :
    Run frames waiting (.gap none none) (token :: rest) r := by
  by_cases scaled : ∃ name after, rest = name :: after ∧ name.kind = .letter
  · obtain ⟨name, after, rfl, isLetter⟩ := scaled
    have here : BuiltInto frames waiting (.gap none (some token)) (some token) (name :: after) r := by
      unfold BuiltInto at built
      rwa [spelledOut_scaled isNumber] at built
    refine .coefficient isNumber isLetter (run_term runs.behind (ended.behind (by simp [isLetter]))
      isLetter (fun number same => ?_) here)
    exact Option.some.inj same ▸ isNumber
  · by_cases factor : ∃ keyword after, rest = keyword :: after ∧ keyword.kind.IsCall
    · obtain ⟨keyword, after, rfl, call⟩ := factor
      have isLetter : keyword.kind ≠ .letter := fun same => scaled ⟨keyword, after, rfl, same⟩
      have other : keyword.kind ≠ .number := fun same => by simp [same, Token.Kind.IsCall] at call
      refine .factor isNumber call ((runs.here ended).gap ?_)
      unfold BuiltInto at built ⊢
      rw [spelledOut_scaled isNumber, spelledOut, if_neg isLetter, if_neg other, if_pos call] at built
      rw [Token.spelledOut_call call]
      simp only [Option.toList_some, Option.map_some, List.cons_append, List.nil_append] at built
      have times : (inserted .times "*").kind.rank?.isSome := rfl
      have stays : Draft.yields (ν := ν) (inserted .times "*") = fun _ => false := rfl
      have product := (Draft.build_operator times).symm.trans
        ((Draft.build_operand (.inl isNumber)).symm.trans built)
      rw [stays, Waiting.closeWhile_stop (fun _ _ => rfl)] at product
      exact product
    · refine .number isNumber ((runs.here ended).full ?_)
      unfold BuiltInto at built ⊢
      rw [spelledOut_alone isNumber fun next after same =>
        ⟨fun letter => scaled ⟨next, after, same, letter⟩,
          fun call => factor ⟨next, after, same, call⟩⟩] at built
      exact (Draft.build_operand (.inl isNumber)).symm.trans built

/-- A number that a minus sign makes negative stands alone as it is written. -/
theorem lone_of_spelledOut (lone : isLoneNumber (spelledOut depth pending none rest)) : ∃ number after,
    rest = number :: after ∧ number.kind = .number ∧
      spelledOut depth pending none rest = number :: spelledOut depth pending none after := by
  obtain ⟨number, more, first, digits⟩ := Draft.number_of_isLoneNumber lone
  cases rest with
  | nil =>
    rw [spelledOut] at first
    cases first
  | cons token after =>
    by_cases letter : token.kind = .letter
    · rw [spelledOut, if_pos letter] at first
      simp [← (List.cons.inj first).1, inserted] at digits
    · by_cases isNumber : token.kind = .number
      · refine ⟨token, after, rfl, isNumber, spelledOut_alone isNumber ?_⟩
        rintro next after rfl
        rw [spelledOut_scaled isNumber, spelledOut] at first lone
        refine ⟨fun letter => ?_, fun call => ?_⟩
        · rw [if_pos letter] at first
          simp [← (List.cons.inj first).1, inserted] at digits
        · have letter : next.kind ≠ .letter := fun same => by simp [same, Token.Kind.IsCall] at call
          have other : next.kind ≠ .number := fun same => by simp [same, Token.Kind.IsCall] at call
          rw [if_neg letter, if_neg other, if_pos call] at lone
          simp [isLoneNumber, inserted] at lone
      · obtain ⟨more', first'⟩ := spelledOut_first depth pending letter isNumber after
        obtain rfl := (List.cons.inj (first'.symm.trans first)).1
        exact absurd digits isNumber

/-- Behind an operand, a run goes on with an operator, with a bracket that closes or with the end of
the text. -/
theorem Run.behind (run : Run frames waiting (.full x) rest r) :
    ∃ next after, rest = next :: after ∧ next.kind.IsBehind := by
  cases run with
  | finish kind => exact ⟨_, _, rfl, .inr (.inr kind)⟩
  | operator rank => exact ⟨_, _, rfl, .inl rank⟩
  | closing kind => exact ⟨_, _, rfl, .inr (.inl kind)⟩

/-- Whether a number stands alone does not change when implicit products are spelled out. -/
theorem isLoneNumber_spelledOut {number next : Token} (digits : number.kind = .number)
    (behind : next.kind.IsBehind) (depth : Nat) (pending : List Nat) (after : List Token) :
    isLoneNumber (spelledOut depth pending none (number :: next :: after)) = true ↔
      StandsAlone (number :: next :: after) := by
  obtain ⟨more, first⟩ := Phrase.spelledOut_behind_head depth pending behind after
  rw [Token.spelledOut_number digits behind, first]
  simp [isLoneNumber, StandsAlone, digits, behind, and_assoc]

theorem StandsAlone.lone (alone : StandsAlone rest) : isLoneNumber (spelledOut depth pending none rest) := by
  rcases rest with _ | ⟨number, _ | ⟨next, after⟩⟩
  · exact alone.elim
  · exact alone.elim
  · exact (isLoneNumber_spelledOut alone.1 alone.2.1 depth pending after).mpr alone

theorem standsAlone_of_lone (digits : token.kind = .number)
    (lone : isLoneNumber (token :: spelledOut depth pending none rest))
    (run : Run frames waiting (.full x) rest r) : StandsAlone (token :: rest) := by
  obtain ⟨next, after, rfl, behind⟩ := run.behind
  rw [← Token.spelledOut_number digits behind] at lone
  exact (isLoneNumber_spelledOut digits behind depth pending after).mp lone

/-- In front of an operand, an operator is a sign. -/
theorem run_sign (runs : RunsLater ν rest) (ended : Token.Ended rest) (rank : token.kind.rank?.isSome)
    (built : BuiltInto frames waiting (.gap none none) none (token :: rest) r) :
    Run frames waiting (.gap none none) (token :: rest) r := by
  unfold BuiltInto at built
  rw [Token.spelledOut_operator rank] at built
  obtain ⟨later, taken, placed, built⟩ :=
    Draft.build_placed (fun same => by simp [same, Token.Kind.rank?] at rank) built
  cases placed with
  | sign _ sign composite =>
    refine .sign sign (fun minus alone => ?_) ((runs.here ended).gap built)
    simp [alone.lone] at composite
    exact composite minus
  | negative _ minus follows digits lone =>
    obtain ⟨number, after, rfl, isNumber, spelled⟩ := lone_of_spelledOut lone
    obtain ⟨rfl, -⟩ := List.cons.inj (spelled.symm.trans follows)
    rw [spelled] at built lone
    have run := (runs.behind.here (ended.behind (by simp [isNumber]))).full built
    exact .negative minus (standsAlone_of_lone isNumber lone run) run
  | operator behind => cases behind
  | operand _ kind => rcases kind with h | h | h <;> simp [h, Token.Kind.rank?] at rank
  | factorial _ kind | opening _ kind | closing kind => simp [kind, Token.Kind.rank?] at rank
  | call _ kind => rcases kind with h | h | h | h <;> simp [h, Token.Kind.rank?] at rank

/-- A keyword takes the bracket or the term behind it. -/
theorem run_call (runs : RunsLater ν rest) (ended : Token.Ended rest) (call : token.kind.IsCall)
    (built : BuiltInto frames waiting (.gap none none) none (token :: rest) r) :
    Run frames waiting (.gap none none) (token :: rest) r := by
  unfold BuiltInto at built
  rw [Token.spelledOut_call call] at built
  obtain ⟨later, taken, placed, built⟩ :=
    Draft.build_placed (fun same => by simp [same, Token.Kind.IsCall] at call) built
  cases placed with
  | call _ _ follows opens =>
    cases rest with
    | nil => cases ended
    | cons next after => exact .call call (run_argument runs.behind ended built ⟨_, _, follows, opens⟩)
  | operand _ kind => rcases kind with h | h | h <;> simp [h, Token.Kind.IsCall] at call
  | sign _ kind => rcases kind with h | h <;> simp [h, Token.Kind.IsCall] at call
  | factorial _ kind | opening _ kind | closing kind | negative _ kind =>
    simp [kind, Token.Kind.IsCall] at call
  | operator behind => cases behind

/-- Where an operand has to come next. -/
theorem run_gap (runs : RunsLater ν rest)
    (ended : Token.Ended (token :: rest)) (known : token.kind ≠ .polynomial)
    (built : BuiltInto frames waiting (.gap none none) none (token :: rest) r) :
    Run frames waiting (.gap none none) (token :: rest) r := by
  by_cases letter : token.kind = .letter
  · exact run_term runs (ended.behind (by simp [letter])) letter (fun _ absurd => (by cases absurd)) built
  by_cases number : token.kind = .number
  · exact run_number runs (ended.behind (by simp [number])) number built
  by_cases opens : token.kind = .opening
  · exact .opening opens ((runs.here (ended.behind (by simp [opens]))).gap (built.opening opens))
  by_cases call : token.kind.IsCall
  · exact run_call runs (ended.behind (fun same => by simp [same, Token.Kind.IsCall] at call)) call built
  by_cases rank : token.kind.rank?.isSome
  · exact run_sign runs (ended.behind (fun same => by simp [same, Token.Kind.rank?] at rank)) rank built
  obtain ⟨more, first⟩ := spelledOut_first frames.length (Frame.depths frames) letter number rest
  unfold BuiltInto at built
  rw [first] at built
  by_cases finish : token.kind = .finish
  · cases (Draft.build_finished finish built).2
  obtain ⟨later, taken, placed, -⟩ := Draft.build_placed finish built
  cases placed with
  | factorial _ factorial =>
    refine .factorial factorial ((runs.here (ended.behind finish)).full ?_)
    rw [← first, Token.spelledOut_factorial factorial] at built
    exact (Draft.build_ofFactorial factorial).symm.trans built
  | closing _ around whole => cases whole
  | operand _ kind => simp [letter, number, known] at kind
  | negative _ kind => simp [kind, Token.Kind.rank?] at rank
  | sign _ kind => rcases kind with h | h <;> simp [h, Token.Kind.rank?] at rank
  | operator _ kind => exact absurd kind rank
  | opening _ kind => exact absurd kind opens
  | call _ kind => exact absurd kind call

theorem runsLater {tokens : List Token}
    (written : ∀ token ∈ tokens, token.kind ≠ .polynomial ∧ token.isInserted = false) :
    RunsLater ν tokens := by
  induction tokens with
  | nil =>
    intro later suffix ended
    rw [List.suffix_nil.mp suffix] at ended
    cases ended
  | cons token rest ih =>
    obtain ⟨⟨known, here⟩, written⟩ := List.forall_mem_cons.mp written
    intro later suffix ended
    rcases List.suffix_cons_iff.mp suffix with rfl | suffix
    · exact ⟨run_gap (ih written) ended known, run_full (ih written) ended here⟩
    · exact ih written later suffix ended

/-- What a text denotes is built in a run over its tokens as they are written. -/
theorem run_of_text {text : String} {tokens : List Token} (scanned : Token.scan text = .ok tokens)
    (built : Tree.ofText text = .ok r) : Run [] [] (.gap none none) tokens r := by
  have read : Token.ofText text = .ok (spelledOut 0 [] none tokens) := by
    rw [Token.ofText, scanned, ← Token.groupProducts_eq]
    rfl
  rw [Tree.ofText, read] at built
  have written (token : Token) (member : token ∈ tokens) :
      token.kind ≠ .polynomial ∧ token.isInserted = false := by
    obtain ⟨spelled, -, -, written⟩ := Token.scan_from scanned token member
    exact ⟨fun kind => by simp [Token.Spelled, kind] at spelled, written⟩
  have ended : Token.Ended tokens := Token.scanFrom_ended (fun _ absurd => (by cases absurd)) scanned
  exact ((runsLater written).here ended).gap built

end Steps

end Stepwise
