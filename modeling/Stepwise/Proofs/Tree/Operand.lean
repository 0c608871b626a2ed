import Stepwise.Proofs.Tree.Written

/-! Runs over one operand. Main statements: a run through what a bracket encloses does not look at
what stands around it, and a run through an operand does not look at the operators that wait for
it. -/
namespace Stepwise

/-- What stands behind the bracket that closes the group, with `depth` more brackets open inside of it. -/
def Token.behindGroup (depth : Nat) : List Token → List Token
  | [] => []
  | token :: rest =>
    if token.kind = .opening then behindGroup (depth + 1) rest
    else if token.kind = .closing then
      match depth with
      | 0 => rest
      | depth + 1 => behindGroup depth rest
    else behindGroup depth rest

variable {ν : Type} {token : Token} {rest : List Token} {depth : Nat}

namespace Token

theorem behindGroup_opening (kind : token.kind = .opening) :
    behindGroup depth (token :: rest) = behindGroup (depth + 1) rest := by
  simp [behindGroup, kind]

theorem behindGroup_closing (kind : token.kind = .closing) :
    behindGroup (depth + 1) (token :: rest) = behindGroup depth rest := by
  simp [behindGroup, kind]

theorem behindGroup_end (kind : token.kind = .closing) : behindGroup 0 (token :: rest) = rest := by
  simp [behindGroup, kind]

theorem behindGroup_other (opening : token.kind ≠ .opening) (closing : token.kind ≠ .closing) :
    behindGroup depth (token :: rest) = behindGroup depth rest := by
  simp [behindGroup, opening, closing]

theorem behindGroup_operator (rank : token.kind.rank?.isSome) :
    behindGroup depth (token :: rest) = behindGroup depth rest := by
  apply behindGroup_other
  all_goals
    intro same
    simp [same, Kind.rank?] at rank

theorem behindGroup_call (call : token.kind.IsCall) :
    behindGroup depth (token :: rest) = behindGroup depth rest := by
  apply behindGroup_other
  all_goals
    intro same
    simp [same, Kind.IsCall] at call

theorem length_behindGroup_le (depth : Nat) (tokens : List Token) :
    (behindGroup depth tokens).length ≤ tokens.length := by
  fun_induction behindGroup depth tokens with
  | case1 => exact Nat.le_refl _
  | case3 => exact Nat.le_succ _
  | case2 _ _ _ _ ih | case4 _ _ _ _ _ ih | case5 _ _ _ _ _ ih => exact Nat.le_trans ih (Nat.le_succ _)

end Token

namespace Run

open Token (behindGroup)

variable {frames inner : List (Frame ν)} {bottom : Frame ν} {waiting : List (Waiting (Label ν))}
  {slot : Slot ν}
  {tokens : List Token} {r : Tree (Label ν)}

/-- A run through what `bottom` encloses, `inner` being the brackets that it opened there, ends at
the bracket that closes `bottom`, and any other bracket could stand for `bottom`. -/
def Encloses (inner : List (Frame ν)) (bottom : Frame ν) (waiting : List (Waiting (Label ν))) (slot : Slot ν)
    (tokens : List Token) (r : Tree (Label ν)) : Prop :=
  ∃ x, Run [] bottom.waiting (.full (bottom.fill x)) (behindGroup inner.length tokens) r ∧
    ∀ {other r'}, Run [] other.waiting (.full (other.fill x)) (behindGroup inner.length tokens) r' →
      Run (inner ++ [other]) waiting slot tokens r'

theorem Encloses.step {inner' : List (Frame ν)} {waiting' : List (Waiting (Label ν))}
    {slot' : Slot ν} {tokens' : List Token} (encloses : Encloses inner bottom waiting slot tokens r)
    (same : behindGroup inner'.length tokens' = behindGroup inner.length tokens)
    (step : ∀ {other r'}, Run (inner ++ [other]) waiting slot tokens r' →
      Run (inner' ++ [other]) waiting' slot' tokens' r') :
    Encloses inner' bottom waiting' slot' tokens' r := by
  obtain ⟨x, goes, again⟩ := encloses
  refine ⟨x, ?_, fun run => step (again ?_)⟩
  · rwa [same]
  · rwa [same] at run

theorem Encloses.ending {x : Tree (Label ν)} (kind : token.kind = .closing)
    (run : Run [] bottom.waiting (.full (bottom.fill (Waiting.close waiting x))) rest r) :
    Encloses [] bottom waiting (.full x) (token :: rest) r := by
  refine ⟨Waiting.close waiting x, ?_, fun {other r'} run => Run.closing kind ?_⟩
  · rwa [List.length_nil, Token.behindGroup_end kind]
  · rwa [List.length_nil, Token.behindGroup_end kind] at run

/-- What a bracket encloses is read without a look at what stands around the bracket. -/
theorem enclosed (run : Run frames waiting slot tokens r) :
    ∀ {inner bottom}, frames = inner ++ [bottom] → Encloses inner bottom waiting slot tokens r := by
  induction run with
  | finish => intro inner bottom same; simp at same
  | number kind _ ih =>
    intro inner bottom same
    exact (ih same).step (Token.behindGroup_other (by simp [kind]) (by simp [kind])) (.number kind)
  | factorial kind _ ih =>
    intro inner bottom same
    exact (ih same).step (Token.behindGroup_other (by simp [kind]) (by simp [kind])) (.factorial kind)
  | factor kind call _ ih =>
    intro inner bottom same
    exact (ih same).step (Token.behindGroup_other (by simp [kind]) (by simp [kind])) (.factor kind call)
  | negative kind alone _ ih =>
    intro inner bottom same
    refine (ih same).step ?_ (.negative kind alone)
    rw [Token.behindGroup_operator (by simp [kind, Token.Kind.rank?]),
      Token.behindGroup_other (by simp [alone.digits]) (by simp [alone.digits])]
  | sign kind composite _ ih =>
    intro inner bottom same
    refine (ih same).step (Token.behindGroup_operator ?_) (.sign kind composite)
    rcases kind with h | h <;> simp [h, Token.Kind.rank?]
  | operator rank written _ ih =>
    intro inner bottom same
    exact (ih same).step (Token.behindGroup_operator rank) (.operator rank written)
  | call kind _ ih =>
    intro inner bottom same
    exact (ih same).step (Token.behindGroup_call kind) (.call kind)
  | opening kind _ ih =>
    intro inner bottom same
    exact (ih (same ▸ (List.cons_append ..).symm)).step (Token.behindGroup_opening kind) (.opening kind)
  | closing kind run ih =>
    intro inner bottom same
    cases inner with
    | nil =>
      obtain ⟨rfl, rfl⟩ := List.cons.inj same
      exact .ending kind run
    | cons inside inner =>
      obtain ⟨rfl, around⟩ := List.cons.inj same
      exact (ih around).step (Token.behindGroup_closing kind) (.closing kind)
  | coefficient kind isLetter _ ih =>
    intro inner bottom same
    exact (ih same).step (Token.behindGroup_other (by simp [kind]) (by simp [kind]))
      (.coefficient kind isLetter)
  | letter kind bare _ ih =>
    intro inner bottom same
    exact (ih same).step (Token.behindGroup_other (by simp [kind]) (by simp [kind])) (.letter kind bare)
  | power kind isCaret digits _ ih =>
    intro inner bottom same
    refine (ih same).step ?_ (.power kind isCaret digits)
    rw [Token.behindGroup_other (by simp [kind]) (by simp [kind]),
      Token.behindGroup_operator (by simp [isCaret, Token.Kind.rank?]),
      Token.behindGroup_other (by simp [digits]) (by simp [digits])]
  | raised kind isCaret opens _ ih =>
    intro inner bottom same
    refine (ih (same ▸ (List.cons_append ..).symm)).step ?_ (.raised kind isCaret opens)
    rw [Token.behindGroup_other (by simp [kind]) (by simp [kind]), Token.behindGroup_operator
      (by simp [isCaret, Token.Kind.rank?]), Token.behindGroup_opening opens, List.length_cons]

/-- In front of `tokens`, whatever waits for an operand, `x` is read, in front of which the
operators `added` stand, and `after` is what stands behind it. -/
def ReadsOperand (slot : Slot ν) (tokens : List Token) (added : List (Waiting (Label ν)))
    (x : Tree (Label ν)) (after : List Token) :
    Prop :=
  after.length < tokens.length ∧ ∀ {waiting r}, Run [] (added ++ waiting) (.full x) after r →
    Run [] waiting slot tokens r

theorem ReadsOperand.behind {added : List (Waiting (Label ν))} (more : List (Waiting (Label ν)))
    {x : Tree (Label ν)} {after tokens' : List Token} {slot' : Slot ν}
    (reads : ReadsOperand slot tokens added x after) (shorter : tokens.length ≤ tokens'.length)
    (step : ∀ {waiting r}, Run [] (more ++ waiting) slot tokens r → Run [] waiting slot' tokens' r) :
    ReadsOperand slot' tokens' (added ++ more) x after := by
  refine ⟨Nat.lt_of_lt_of_le reads.1 shorter, fun run => step (reads.2 ?_)⟩
  rwa [← List.append_assoc]

/-- An operand is read without a look at the operators that wait for it. -/
theorem operand (run : Run frames waiting slot tokens r) (outside : frames = []) (gap : ∀ x, slot ≠ .full x) :
    ∃ added x after, ReadsOperand slot tokens added x after ∧
      Run [] (added ++ waiting) (.full x) after r := by
  have left : ∀ {call held : Option Token} (x : Tree (Label ν)), Slot.gap call held ≠ .full x :=
    fun _ absurd => (by cases absurd)
  induction run with
  | finish | operator | closing => exact absurd rfl (gap _)
  | number kind run =>
    subst outside
    exact ⟨[], _, _, ⟨by simp, fun run => .number kind run⟩, run⟩
  | factorial kind run =>
    subst outside
    exact ⟨[], _, _, ⟨by simp, fun run => .factorial kind run⟩, run⟩
  | negative kind alone run =>
    subst outside
    exact ⟨[], _, _, ⟨by simp, fun run => .negative kind alone run⟩, run⟩
  | letter kind bare run =>
    subst outside
    exact ⟨[], _, _, ⟨by simp, fun run => .letter kind bare run⟩, run⟩
  | power kind isCaret digits run =>
    subst outside
    exact ⟨[], _, _, ⟨by simp; omega, fun run => .power kind isCaret digits run⟩, run⟩
  | factor kind call _ ih =>
    obtain ⟨added, x, after, reads, run⟩ := ih outside left
    refine ⟨_, x, after, reads.behind [_] (by simp) fun run => .factor kind call run, ?_⟩
    rwa [List.append_assoc]
  | sign kind composite _ ih =>
    obtain ⟨added, x, after, reads, run⟩ := ih outside left
    refine ⟨_, x, after, reads.behind [_] (by simp) fun run => .sign kind composite run, ?_⟩
    rwa [List.append_assoc]
  | call kind _ ih =>
    obtain ⟨added, x, after, reads, run⟩ := ih outside left
    refine ⟨_, x, after, reads.behind [] (by simp) fun run => .call kind run, ?_⟩
    rwa [List.append_nil]
  | coefficient kind isLetter _ ih =>
    obtain ⟨added, x, after, reads, run⟩ := ih outside left
    refine ⟨_, x, after, reads.behind [] (by simp) fun run => .coefficient kind isLetter run, ?_⟩
    rwa [List.append_nil]
  | @opening _ call _ _ _ _ kind run =>
    subst outside
    obtain ⟨x, goes, again⟩ := run.enclosed (List.nil_append _).symm
    refine ⟨[], _, _, ⟨Nat.lt_succ_of_le (Token.length_behindGroup_le ..), fun {waiting r} run =>
      .opening kind ?_⟩, goes⟩
    exact @again { waiting, call } r run
  | @raised _ call _ _ _ letter caret _ held kind isCaret opens run =>
    subst outside
    obtain ⟨x, goes, again⟩ := run.enclosed (List.nil_append _).symm
    refine ⟨[], _, _, ⟨?_, fun {waiting r} run => .raised kind isCaret opens ?_⟩, goes⟩
    · exact Nat.lt_of_le_of_lt (Token.length_behindGroup_le ..) (by simp; omega)
    · exact @again
        { waiting, call, base := some (held.getD (Token.inserted .number "1"), letter, caret) } r run

end Run

end Stepwise
