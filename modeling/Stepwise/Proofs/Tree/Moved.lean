import Stepwise.Proofs.Tree.Written

/-! What stands further to the right in a text. Main statements: characters that are moved are
scanned into moved tokens, and a run over moved tokens ends with the moved tree. -/
namespace Stepwise

variable {ν : Type}

namespace Token

/-- The token as it stands `distance` characters further to the right. An inserted one has no position. -/
def moved (distance : Nat) (token : Token) : Token :=
  { token with position := token.position.map (· + distance) }

variable {distance : Nat}

@[simp] theorem kind_moved (token : Token) : (token.moved distance).kind = token.kind := rfl

@[simp] theorem text_moved (token : Token) : (token.moved distance).text = token.text := rfl

@[simp] theorem isInserted_moved (token : Token) : (token.moved distance).isInserted = token.isInserted := by
  cases same : token.position <;> simp [moved, isInserted, same]

@[simp] theorem moved_inserted (kind : Kind) (text : String) :
    (inserted kind text).moved distance = inserted kind text :=
  rfl

theorem numberLexeme_moved (position : Nat) (text rest : List Char) :
    numberLexeme (position + distance) text rest =
      ((numberLexeme position text rest).1.moved distance, (numberLexeme position text rest).2) := by
  unfold numberLexeme
  split <;> rfl

theorem scanNumber_moved {position : Nat} {source : List Char} {token : Token} {extra : Nat}
    (scanned : scanNumber position source = .ok (token, extra)) :
    scanNumber (position + distance) source = .ok (token.moved distance, extra) := by
  unfold scanNumber at scanned ⊢
  dsimp only at scanned ⊢
  split at scanned
  · split at scanned
    · cases scanned
    · split at scanned
      · cases scanned
      · next fraction =>
        rw [if_neg fraction, numberLexeme_moved, Except.ok.inj scanned]
  · rw [numberLexeme_moved, Except.ok.inj scanned]

theorem scanLexeme_moved {position : Nat} {c : Char} {rest : List Char} {token : Token} {extra : Nat}
    (scanned : scanLexeme position c rest = .ok (token, extra)) :
    scanLexeme (position + distance) c rest = .ok (token.moved distance, extra) := by
  unfold scanLexeme at scanned ⊢
  split at scanned
  · next digit =>
    rw [if_pos digit]
    exact scanNumber_moved scanned
  · next other =>
    rw [if_neg other]
    split at scanned
    · next letter =>
      rw [if_pos letter]
      unfold scanWord at scanned ⊢
      dsimp only at scanned ⊢
      split at scanned
      · cases scanned
        rfl
      · cases scanned
    · next symbol =>
      rw [if_neg symbol]
      split at scanned
      · cases scanned
        rfl
      · cases scanned

/-- Characters that stand further to the right are scanned into moved tokens, whatever was scanned before. -/
theorem scanFrom_moved {read tokens : List Token} {position : Nat} {source : List Char}
    (scanned : scanFrom read position source = .ok tokens) (distance : Nat) :
    ∃ later, tokens = read.reverse ++ later ∧
      ∀ before, scanFrom before (position + distance) source =
      .ok (before.reverse ++ later.map (moved distance)) := by
  fun_induction scanFrom read position source with
  | case1 read position =>
    cases scanned
    refine ⟨[⟨.finish, "", some position⟩], List.reverse_cons, fun before => ?_⟩
    rw [scanFrom, List.reverse_cons]
    rfl
  | case2 read position c rest blank ih =>
    obtain ⟨later, same, again⟩ := ih scanned
    refine ⟨later, same, fun before => ?_⟩
    rw [scanFrom, if_pos blank, Nat.add_right_comm]
    exact again before
  | case3 read position c rest other token extra lexeme ih =>
    obtain ⟨later, same, again⟩ := ih scanned
    refine ⟨token :: later, by simpa using same, fun before => ?_⟩
    have further := again (token.moved distance :: before)
    rw [scanFrom, if_neg other, scanLexeme_moved lexeme]
    dsimp only
    rw [show position + distance + 1 + extra = position + 1 + extra + distance by omega, further]
    simp
  | case4 => cases scanned

end Token

def Label.moved (distance : Nat) (a : Label ν) : Label ν :=
  { a with token := a.token.moved distance, call := a.call.map (Token.moved distance) }

namespace Tree

variable {distance : Nat}

def moved (distance : Nat) (x : Tree (Label ν)) : Tree (Label ν) := x.map (Label.moved distance)

@[simp] theorem moved_leaf (a : Label ν) : (leaf a).moved distance = leaf (a.moved distance) := rfl

@[simp] theorem moved_fork (a : Label ν) (left right : Tree (Label ν)) :
    (fork a left right).moved distance = fork (a.moved distance) (left.moved distance)
    (right.moved distance) :=
  rfl

theorem moved_applyCall (call : Option Token) (x : Tree (Label ν)) :
    (x.applyCall call).moved distance = (x.moved distance).applyCall (call.map (Token.moved distance)) := by
  cases call with
  | none => rfl
  | some keyword =>
    have around : (x.moved distance).top.call.isSome = x.top.call.isSome := by simp [moved, Label.moved]
    simp only [applyCall, Option.map_some, Token.kind_moved, around]
    split
    · rfl
    · split
      · rfl
      · cases x <;> rfl

theorem moved_ofLetter (coefficient letter caret : Token) (exponent : Tree (Label ν)) :
    (ofLetter coefficient letter caret exponent).moved distance =
      ofLetter (coefficient.moved distance) (letter.moved distance) (caret.moved distance)
      (exponent.moved distance) := rfl

theorem moved_factorialFrom (chain : Tree (Label ν)) (k count : Nat) :
    (factorialFrom chain k count).moved distance = factorialFrom (chain.moved distance) k count := by
  induction count generalizing chain k with
  | zero => rfl
  | succ count ih => exact ih ..

theorem moved_ofFactorial (token : Token) :
    (ofFactorial token : Tree (Label ν)).moved distance = ofFactorial (token.moved distance) := by
  unfold ofFactorial
  rw [Token.text_moved]
  split
  · exact moved_factorialFrom ..
  · rfl

end Tree

def Waiting.moved (distance : Nat) (waiting : List (Waiting (Label ν))) : List (Waiting (Label ν)) :=
  waiting.map (Waiting.map (Label.moved distance))

def Frame.moved (distance : Nat) (frame : Frame ν) : Frame ν where
  waiting := Waiting.moved distance frame.waiting
  call := frame.call.map (Token.moved distance)
  base := frame.base.map fun (coefficient, letter, caret) =>
    (coefficient.moved distance, letter.moved distance, caret.moved distance)

def Slot.moved (distance : Nat) : Slot ν → Slot ν
  | .gap call held => .gap (call.map (Token.moved distance)) (held.map (Token.moved distance))
  | .full x => .full (x.moved distance)

section
variable {distance : Nat}

theorem Waiting.moved_close (waiting : List (Waiting (Label ν))) (x : Tree (Label ν)) :
    (close waiting x).moved distance = close (moved distance waiting) (x.moved distance) := map_close ..

theorem Waiting.moved_closeWhile (token : Token) (waiting : List (Waiting (Label ν))) (x : Tree (Label ν)) :
    closeWhile (Draft.yields (token.moved distance)) (moved distance waiting) (x.moved distance) =
      (moved distance (closeWhile (Draft.yields token) waiting x).1,
      (closeWhile (Draft.yields token) waiting x).2.moved distance) := by
  have same : Draft.yields (token.moved distance) ∘ Label.moved (ν := ν) distance = Draft.yields token := by
    funext above
    simp [Draft.yields, Label.moved]
  rw [← same]
  exact map_closeWhile ..

theorem Frame.moved_fill (frame : Frame ν) (x : Tree (Label ν)) :
    (frame.fill x).moved distance = (frame.moved distance).fill (x.moved distance) := by
  obtain ⟨waiting, call, base⟩ := frame
  cases base with
  | none => exact Tree.moved_applyCall ..
  | some base => exact Tree.moved_applyCall ..

theorem takesExponent_moved {rest : List Token} :
    TakesExponent (rest.map (Token.moved distance)) ↔ TakesExponent rest := by
  rcases rest with _ | ⟨caret, _ | ⟨exponent, after⟩⟩ <;> rfl

theorem standsAlone_moved {rest : List Token} :
    StandsAlone (rest.map (Token.moved distance)) ↔ StandsAlone rest := by
  rcases rest with _ | ⟨number, _ | ⟨next, after⟩⟩ <;> rfl

theorem moved_coefficient (held : Option Token) :
    (held.getD (.inserted .number "1")).moved distance =
    (held.map (Token.moved distance)).getD (.inserted .number "1") := by
  cases held <;> rfl

end

/-- A run further to the right ends with the moved tree. -/
theorem Run.moved {frames : List (Frame ν)} {waiting : List (Waiting (Label ν))} {slot : Slot ν}
    {tokens : List Token} {r : Tree (Label ν)} (run : Run frames waiting slot tokens r)
    (distance : Nat) :
    Run (frames.map (Frame.moved distance)) (Waiting.moved distance waiting) (slot.moved distance)
      (tokens.map (Token.moved distance)) (r.moved distance) := by
  induction run with
  | finish kind =>
    rw [Waiting.moved_close]
    exact .finish kind
  | number kind _ ih => exact .number kind ih
  | factorial kind _ ih =>
    rw [Slot.moved, Tree.moved_ofFactorial] at ih
    exact .factorial kind ih
  | factor kind call _ ih => exact .factor kind call ih
  | negative kind alone _ ih => exact .negative kind (standsAlone_moved.mpr alone) ih
  | sign kind composite _ ih =>
    exact .sign kind (fun minus alone => composite minus (standsAlone_moved.mp alone)) ih
  | operator rank written _ ih =>
    refine .operator rank ((Token.isInserted_moved _).trans written) ?_
    rw [Waiting.moved_closeWhile]
    exact ih
  | call kind _ ih => exact .call kind ih
  | opening kind _ ih => exact .opening kind ih
  | closing kind _ ih =>
    rw [Slot.moved, Frame.moved_fill, Waiting.moved_close] at ih
    exact .closing kind ih
  | coefficient kind isLetter _ ih => exact .coefficient kind isLetter ih
  | letter kind bare _ ih =>
    rw [Slot.moved, Tree.moved_applyCall, Tree.moved_ofLetter, moved_coefficient] at ih
    exact .letter kind (fun takes => bare (takesExponent_moved.mp takes)) ih
  | power kind isCaret digits _ ih =>
    rw [Slot.moved, Tree.moved_applyCall, Tree.moved_ofLetter, moved_coefficient] at ih
    exact .power kind isCaret digits ih
  | raised kind isCaret opens _ ih =>
    simp only [List.map_cons, Frame.moved, Option.map_some, moved_coefficient] at ih
    exact .raised kind isCaret opens ih

end Stepwise
