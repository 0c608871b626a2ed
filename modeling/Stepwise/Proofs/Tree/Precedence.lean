import Stepwise.Proofs.Tree.Building
import Stepwise.Proofs.Tree.Written

/-! Precedence and grouping. Main statement: the tree of a text without signs, and without a number
in front of a keyword, is the one that the usual grammar reads from its tokens, and the grammar
reads no other. -/
namespace Stepwise

variable {ν : Type}

/-- What the usual grammar reads in front of `rest`. The tiers are those of the operators, of which
`=` is the loosest. Above them are the operands, and above these what a keyword takes: a bracketed
group or a variable term. -/
inductive Reads : Nat → List Token → List Token → Tree (Label ν) → Prop
  | tighter (reads : Reads (tier + 1) tokens rest x) : Reads tier tokens rest x
  | operator {token : Token} (rank : token.kind.rank? = some tier) (groupsLeft : tier < 3)
      (left : Reads tier tokens (token :: middle) x) (right : Reads (tier + 1) middle rest y) :
      Reads tier tokens rest (.fork { token } x y)
  | power {token : Token} (kind : token.kind = .power) (left : Reads 4 tokens (token :: middle) x)
      (right : Reads 3 middle rest y) : Reads 3 tokens rest (.fork { token } x y)
  | number {token : Token} (kind : token.kind = .number) : Reads 4 (token :: rest) rest (.leaf { token })
  | factorial {token : Token} (kind : token.kind = .factorial) :
      Reads 4 (token :: rest) rest (.ofFactorial token)
  | call {keyword : Token} (kind : keyword.kind.IsCall) (argument : Reads 5 tokens rest x) :
      Reads 4 (keyword :: tokens) rest (x.applyCall (some keyword))
  | bracket {opening closing : Token} (opens : opening.kind = .opening) (closes : closing.kind = .closing)
      (inner : Reads 0 tokens (closing :: rest) x) : Reads 5 (opening :: tokens) rest x
  | letter {coefficient : Option Token} {letter : Token} (number : ∀ n ∈ coefficient, n.kind = .number)
      (kind : letter.kind = .letter) (bare : ¬ TakesExponent rest) :
      Reads 5 (coefficient.toList ++ letter :: rest) rest
        (.ofLetter (coefficient.getD (.inserted .number "1")) letter (.inserted .power "^")
          (.leaf { token := .inserted .number "1" }))
  | letterPower {coefficient : Option Token} {letter caret exponent : Token}
      (number : ∀ n ∈ coefficient, n.kind = .number)
      (kind : letter.kind = .letter) (isCaret : caret.kind = .power) (digits : exponent.kind = .number) :
      Reads 5 (coefficient.toList ++ letter :: caret :: exponent :: rest) rest
        (.ofLetter (coefficient.getD (.inserted .number "1")) letter caret (.leaf { token := exponent }))
  | letterRaised {coefficient : Option Token} {letter caret opening closing : Token}
      (number : ∀ n ∈ coefficient, n.kind = .number) (kind : letter.kind = .letter)
      (isCaret : caret.kind = .power)
      (opens : opening.kind = .opening) (closes : closing.kind = .closing)
      (inner : Reads 0 tokens (closing :: rest) x) :
      Reads 5 (coefficient.toList ++ letter :: caret :: opening :: tokens) rest
        (.ofLetter (coefficient.getD (.inserted .number "1")) letter caret x)

namespace Reads
variable {tokens rest middle now : List Token} {x left : Tree (Label ν)} {token : Token} {tier above : Nat}

theorem looser {low : Nat} (reads : Reads tier tokens rest x) (le : low ≤ tier) :
    Reads low tokens rest x := by
  induction le with
  | refl => exact reads
  | step _ ih => exact ih reads.tighter

theorem tier_le (reads : Reads tier tokens rest x) : tier ≤ 5 := by
  induction reads <;> omega

end Reads

def leftOperandTier (tier : Nat) : Nat := if tier = 3 then 4 else tier

/-- An operator over what was read for its two operands. -/
theorem Reads.fork {tokens rest middle : List Token} {x left : Tree (Label ν)}
    {token : Token} {tier above : Nat} (rank : token.kind.rank? = some above)
    (reads : Reads (leftOperandTier above) tokens (token :: middle) left)
    (right : Reads tier middle rest x) (admits : 3 ≤ tier ∨ above < tier) :
    Reads above tokens rest (.fork { token } left x) := by
  by_cases power : above = 3
  · subst power
    have kind : token.kind = .power := by cases kind : token.kind <;> simp [kind, Token.Kind.rank?] at rank ⊢
    exact .power kind reads (right.looser (by omega))
  · have low : above < 3 := by
      cases kind : token.kind <;> simp [kind, Token.Kind.rank?] at rank <;> omega
    rw [leftOperandTier, if_neg power] at reads
    exact .operator rank low reads (right.looser (by omega))

namespace Draft

theorem rank_le {kind : Token.Kind} {tier : Nat} (rank : kind.rank? = some tier) : tier ≤ 3 := by
  cases kind <;> simp [Token.Kind.rank?] at rank <;> omega

/-- A written operator takes what binds as tightly as it does, save for a power. -/
theorem yields_iff {token : Token} {w : Waiting (Label ν)}
    {tier above : Nat} (rank : token.kind.rank? = some tier) (written : token.isInserted = false)
    (outer : w.1.token.kind.rank? = some above) :
    yields token w.1 = true ↔ tier ≤ above ∧ tier ≠ 3 := by
  unfold yields Expression.Builder.climbsOver
  simp only [rank, outer, written]
  cases kind : token.kind <;> simp [kind, Token.Kind.rank?] at rank <;> subst rank <;>
    cases around : w.1.token.kind <;> simp [around, Token.Kind.rank?] at outer <;> subst outer <;> simp

end Draft

/-- Operators that wait for the operand at `now`, read from `start` on. Each binds more tightly than
those around it. -/
inductive Open : List (Waiting (Label ν)) → List Token → List Token → Prop
  | nil : Open [] start start
  | cons {token : Token} (rank : token.kind.rank? = some tier) (outer : Open waiting start middle)
      (left : Reads (leftOperandTier tier) middle (token :: now) x) (admits : Waiting.Admits tier waiting) :
      Open (({ token }, x) :: waiting) start now

namespace Open
variable {waiting : List (Waiting (Label ν))} {start middle now rest : List Token}
  {x : Tree (Label ν)} {tier : Nat}

/-- What the waiting operators come to is read from their start on. -/
theorem close (opened : Open waiting start middle) (reads : Reads tier middle rest x)
    (admits : Waiting.Admits tier waiting) :
    Reads 0 start rest (Waiting.close waiting x) := by
  induction opened generalizing tier x with
  | nil => exact reads.looser (Nat.zero_le _)
  | cons rank outer left tight ih =>
    have fits := admits _ rfl
    simp only [rank, Option.some.injEq, exists_eq_left'] at fits
    exact ih (.fork rank left reads fits) tight

/-- What an operator takes as its left operand is read from where the operators that it leaves waiting end. -/
theorem closeWhile {token : Token} {limit : Nat} (rank : token.kind.rank? = some limit)
    (written : token.isInserted = false) (opened : Open waiting start middle)
    (reads : Reads tier middle rest x) (admits : Waiting.Admits tier waiting)
    (tight : leftOperandTier limit ≤ tier) :
    ∃ onset, Open (Waiting.closeWhile (Draft.yields token) waiting x).1 start onset ∧
      Reads (leftOperandTier limit) onset rest (Waiting.closeWhile (Draft.yields token) waiting x).2 ∧
        Waiting.Admits limit (Waiting.closeWhile (Draft.yields token) waiting x).1 := by
  induction opened generalizing tier x with
  | nil => exact ⟨_, .nil, reads.looser tight, fun _ absurd => (by cases absurd)⟩
  | @cons above waiting start middle now left outerToken outerRank outer leftReads outerAdmits ih =>
    have fits := admits _ rfl
    simp only [outerRank, Option.some.injEq, exists_eq_left'] at fits
    have yields := Draft.yields_iff (w := ({ token := outerToken }, left)) rank written outerRank
    by_cases takes : limit ≤ above ∧ limit ≠ 3
    · rw [Waiting.closeWhile, if_pos (yields.mpr takes)]
      refine ih (.fork outerRank leftReads reads fits) outerAdmits ?_
      rw [leftOperandTier, if_neg takes.2]
      exact takes.1
    · rw [Waiting.closeWhile, if_neg fun yes => takes (yields.mp yes)]
      refine ⟨_, .cons outerRank outer leftReads outerAdmits, reads.looser tight, fun w first => ?_⟩
      obtain rfl := Option.some.inj first
      have low := Draft.rank_le rank
      by_cases power : limit = 3
      · exact .inl (Nat.le_of_eq power.symm)
      · exact .inr ⟨above, outerRank, by omega⟩

end Open

/-- The open brackets, in tokens that are read from `whole` on. The innermost holds what is read
from `inside` on. -/
inductive Around : List (Frame ν) → List Token → List Token → Prop
  | nil : Around [] whole whole
  | cons {frame : Frame ν} (outer : Around frames whole start) (waiting : Open frame.waiting start middle)
      (fills : ∀ {closing : Token} {rest : List Token} {x : Tree (Label ν)}, closing.kind = .closing →
        Reads 0 inside (closing :: rest) x → Reads 4 middle rest (frame.fill x)) :
        Around (frame :: frames) whole inside

namespace Token

def AwaitsOperand (before : Option Token) : Prop :=
  ∀ token ∈ before, token.kind.rank?.isSome ∨ token.kind = .opening ∨ token.kind.IsCall

/-- No sign stands where an operand has to come next, and no number in front of a keyword. -/
def IsUsual (before : Option Token) : List Token → Prop
  | [] => True
  | token :: rest =>
    (AwaitsOperand before → token.kind ≠ .plus ∧ token.kind ≠ .minus) ∧
      ((∃ number ∈ before, number.kind = .number) → ¬ token.kind.IsCall) ∧ IsUsual (some token) rest

end Token

/-- Where a level stands that is read from `start` on, with `now` ahead and the token `before` behind it. -/
def Slot.Stands (slot : Slot ν) (waiting : List (Waiting (Label ν))) (start now : List Token)
    (before : Option Token) : Prop :=
  match slot with
  | .gap call held =>
    Open waiting start (call.toList ++ (held.toList ++ now)) ∧
      (∀ keyword ∈ call, keyword.kind.IsCall) ∧
      (∀ number ∈ held, number.kind = .number) ∧ (held = none → Token.AwaitsOperand before)
  | .full x => ∃ middle, Open waiting start middle ∧ Reads 4 middle now x

/-- A keyword and its argument are one operand, and so is the argument without a keyword. -/
theorem Reads.called {tokens rest : List Token}
    {x : Tree (Label ν)} (argument : Reads 5 tokens rest x) {call : Option Token}
    (kinds : ∀ keyword ∈ call, keyword.kind.IsCall) :
    Reads 4 (call.toList ++ tokens) rest (x.applyCall call) := by
  cases call with
  | none => exact argument.tighter
  | some keyword => exact .call (kinds keyword rfl) argument

namespace Token
variable {token : Token} {before : Option Token} {rest : List Token}

theorem awaitsOperand_operator (rank : token.kind.rank?.isSome) : AwaitsOperand (some token) :=
  fun _ same => Option.some.inj same ▸ .inl rank

theorem awaitsOperand_opening (opens : token.kind = .opening) : AwaitsOperand (some token) :=
  fun _ same => Option.some.inj same ▸ .inr (.inl opens)

theorem awaitsOperand_call (call : token.kind.IsCall) : AwaitsOperand (some token) :=
  fun _ same => Option.some.inj same ▸ .inr (.inr call)

theorem IsUsual.behind (usual : IsUsual before (token :: rest)) : IsUsual (some token) rest := usual.2.2

end Token

/-- A gap with neither a keyword nor a coefficient in front of it. -/
theorem Slot.stands_gap {waiting : List (Waiting (Label ν))} {start now : List Token} {before : Option Token}
    (opened : Open waiting start now) (awaits : Token.AwaitsOperand before) :
    (Slot.gap (ν := ν) none none).Stands waiting start now before :=
  ⟨opened, fun _ absurd => (by cases absurd), fun _ absurd => (by cases absurd), fun _ => awaits⟩

/-- What a run over written tokens ends with is read by the grammar. -/
theorem Run.reads {frames : List (Frame ν)} {waiting : List (Waiting (Label ν))} {slot : Slot ν}
    {tokens : List Token} {r : Tree (Label ν)} (run : Run frames waiting slot tokens r)
    {whole start : List Token} {before : Option Token} (usual : Token.IsUsual before tokens)
    (around : Around frames whole start) (stands : slot.Stands waiting start tokens before) :
    ∃ finish : Token, finish.kind = .finish ∧ Reads 0 whole [finish] r := by
  induction run generalizing start before with
  | finish kind =>
    obtain ⟨middle, opened, reads⟩ := stands
    cases around
    exact ⟨_, kind, opened.close reads fun _ _ => .inl (by omega)⟩
  | number kind run ih => exact ih usual.behind around ⟨_, stands.1, .number kind⟩
  | factorial kind run ih => exact ih usual.behind around ⟨_, stands.1, .factorial kind⟩
  | factor kind call run ih => exact absurd call (usual.behind.2.1 ⟨_, rfl, kind⟩)
  | negative kind digits run ih => exact absurd kind (usual.1 (stands.2.2.2 rfl)).2
  | sign kind run ih => exact absurd kind (not_or.mpr (usual.1 (stands.2.2.2 rfl)))
  | operator rank written run ih =>
    obtain ⟨middle, opened, reads⟩ := stands
    obtain ⟨tier, known⟩ := Option.isSome_iff_exists.mp rank
    have tight : leftOperandTier tier ≤ 4 := by
      have := Draft.rank_le known
      unfold leftOperandTier
      split <;> omega
    obtain ⟨onset, left, reads, admits⟩ :=
      opened.closeWhile known written reads (fun _ _ => .inl (by omega)) tight
    exact ih usual.behind around
      (Slot.stands_gap (.cons known left reads admits) (Token.awaitsOperand_operator rank))
  | call kind run ih =>
    refine ih usual.behind around
      ⟨stands.1, ?_, fun _ absurd => (by cases absurd), fun _ => Token.awaitsOperand_call kind⟩
    exact fun _ same => Option.some.inj same ▸ kind
  | opening kind run ih =>
    refine ih usual.behind (.cons around stands.1 fun closes inner => ?_)
      (Slot.stands_gap .nil (Token.awaitsOperand_opening kind))
    exact Reads.called (.bracket kind closes inner) stands.2.1
  | closing kind run ih =>
    obtain ⟨middle, opened, reads⟩ := stands
    cases around with
    | cons outer enclosing fills =>
      have inner := opened.close reads fun _ _ => .inl (by omega)
      exact ih usual.behind outer ⟨_, enclosing, fills kind inner⟩
  | coefficient kind isLetter run ih =>
    refine ih usual.behind around ⟨stands.1, stands.2.1, ?_, fun absurd => (by cases absurd)⟩
    exact fun _ same => Option.some.inj same ▸ kind
  | letter kind bare run ih =>
    exact ih usual.behind around ⟨_, stands.1, Reads.called (.letter stands.2.2.1 kind bare) stands.2.1⟩
  | power kind isCaret digits run ih =>
    exact ih usual.behind.behind.behind around
      ⟨_, stands.1, Reads.called (.letterPower stands.2.2.1 kind isCaret digits) stands.2.1⟩
  | raised kind isCaret opens run ih =>
    refine ih usual.behind.behind.behind (.cons around stands.1 fun closes inner => ?_)
      (Slot.stands_gap .nil (Token.awaitsOperand_opening opens))
    exact Reads.called (.letterRaised stands.2.2.1 kind isCaret opens closes inner) stands.2.1

def GoesOn (rest : List Token) : Prop := ∃ next after, rest = next :: after ∧ next.kind.IsBehind

/-- A run goes over what is read at a tier of operators, and leaves operators of that tier or
tighter ones waiting. -/
def Crosses (tier : Nat) (tokens rest : List Token) (x : Tree (Label ν)) : Prop :=
  ∀ ⦃frames : List (Frame ν)⦄ ⦃waiting : List (Waiting (Label ν))⦄ ⦃r : Tree (Label ν)⦄,
    Waiting.Admits tier waiting →
    Run frames waiting (.gap none none) tokens r → ∃ added last, (∀ w ∈ added, Waiting.Binds tier w) ∧
      Waiting.close added last = x ∧ Run frames (added ++ waiting) (.full last) rest r

def CrossesArgument (tokens rest : List Token) (x : Tree (Label ν)) : Prop :=
  ∀ ⦃frames : List (Frame ν)⦄ ⦃waiting : List (Waiting (Label ν))⦄ ⦃call : Option Token⦄ ⦃r : Tree (Label ν)⦄,
    Run frames waiting (.gap call none) tokens r → Run frames waiting (.full (x.applyCall call)) rest r

namespace Waiting

/-- No operator binds more tightly than a power. -/
theorem nil_of_binds {added : List (Waiting (Label ν))} (binds : ∀ w ∈ added, Binds 4 w) : added = [] := by
  cases added with
  | nil => rfl
  | cons w added =>
    obtain ⟨rank, known, large⟩ := binds w (List.mem_cons_self ..)
    have := Draft.rank_le known
    omega

end Waiting

section Uniqueness
variable {tokens rest middle : List Token} {x y : Tree (Label ν)} {token : Token} {tier : Nat}

theorem Crosses.looser (crosses : Crosses (tier + 1) tokens rest x) : Crosses tier tokens rest x := by
  intro frames waiting r admits run
  obtain ⟨added, last, binds, same, later⟩ := crosses (admits.mono (Nat.le_succ tier)) run
  exact ⟨added, last, fun w member => (binds w member).mono (Nat.le_succ tier), same, later⟩

theorem CrossesArgument.crosses (crosses : CrossesArgument tokens rest x) : Crosses 4 tokens rest x :=
  fun _ _ _ _ run => ⟨[], x, fun _ absurd => (by cases absurd), rfl, crosses run⟩

/-- An operand that is one token. -/
theorem crosses_token {operand : Tree (Label ν)}
    (step : ∀ {frames : List (Frame ν)} {waiting : List (Waiting (Label ν))} {r : Tree (Label ν)},
      Run frames waiting (.gap none none) tokens r → Run frames waiting (.full operand) rest r) :
    Crosses 4 tokens rest operand :=
  fun _ _ _ _ run => ⟨[], operand, fun _ absurd => (by cases absurd), rfl, step run⟩

/-- Behind an operand, an operator takes what binds at least as tightly. -/
theorem Run.of_operator {frames : List (Frame ν)} {waiting : List (Waiting (Label ν))} {r : Tree (Label ν)}
    (rank : token.kind.rank?.isSome) (run : Run frames waiting (.full x) (token :: rest) r) :
    token.isInserted = false ∧
      Run frames (({ token }, (Waiting.closeWhile (Draft.yields token) waiting x).2) ::
      (Waiting.closeWhile (Draft.yields token) waiting x).1) (.gap none none) rest r := by
  cases run with
  | finish finish => simp [finish, Token.Kind.rank?] at rank
  | closing closes => simp [closes, Token.Kind.rank?] at rank
  | operator _ written later => exact ⟨written, later⟩

/-- The right operand of an operator is crossed with the operator. -/
theorem Crosses.behind {frames : List (Frame ν)} {waiting : List (Waiting (Label ν))}
    {r : Tree (Label ν)} {above : Nat} (rank : token.kind.rank? = some tier)
    (tighter : tier ≤ above) (right : Crosses above middle rest y)
    (admits : Waiting.Admits above (({ token }, x) :: waiting))
    (run : Run frames (({ token }, x) :: waiting) (.gap none none) middle r) :
    ∃ added last, (∀ w ∈ added, Waiting.Binds tier w) ∧ Waiting.close added last = .fork { token } x y ∧
      Run frames (added ++ waiting) (.full last) rest r := by
  obtain ⟨added, last, binds, rfl, later⟩ := right admits run
  refine ⟨added ++ [(({ token } : Label ν), x)], last, fun w member => ?_, Waiting.close_append ..,
    by simpa using later⟩
  rcases List.mem_append.mp member with member | member
  · exact (binds w member).mono tighter
  · exact List.mem_singleton.mp member ▸ ⟨tier, rank, Nat.le_refl _⟩

theorem Crosses.operator (rank : token.kind.rank? = some tier) (groupsLeft : tier < 3)
    (left : Crosses tier tokens (token :: middle) x) (right : Crosses (tier + 1) middle rest y) :
    Crosses tier tokens rest (.fork { token } x y) := by
  intro frames waiting r admits run
  obtain ⟨added, last, binds, rfl, later⟩ := left admits run
  obtain ⟨written, later⟩ := later.of_operator (by simp [rank])
  have taken (w : Waiting (Label ν)) (member : w ∈ added) : Draft.yields token w.1 = true := by
    obtain ⟨above, known, large⟩ := binds w member
    exact (Draft.yields_iff rank written known).mpr ⟨large, by omega⟩
  have stops (w : Waiting (Label ν)) (first : waiting.head? = some w) : Draft.yields token w.1 = false := by
    rcases admits w first with large | ⟨above, known, less⟩
    · omega
    · exact Bool.eq_false_iff.mpr fun yes =>
        absurd ((Draft.yields_iff rank written known).mp yes).1 (by omega)
  rw [Waiting.closeWhile_append taken, Waiting.closeWhile_stop stops] at later
  exact right.behind rank (Nat.le_succ tier)
    (fun w first => .inr ⟨tier, Option.some.inj first ▸ rank, Nat.lt_succ_self tier⟩) later

theorem Crosses.power (kind : token.kind = .power) (left : Crosses 4 tokens (token :: middle) x)
    (right : Crosses 3 middle rest y) : Crosses 3 tokens rest (.fork { token } x y) := by
  have rank : token.kind.rank? = some 3 := by rw [kind]; rfl
  intro frames waiting r admits run
  obtain ⟨added, last, binds, rfl, later⟩ := left (fun _ _ => .inl (by omega)) run
  obtain rfl := Waiting.nil_of_binds binds
  obtain ⟨-, later⟩ := later.of_operator (by simp [rank])
  have stops (w : Waiting (Label ν)) (first : waiting.head? = some w) : Draft.yields token w.1 = false := by
    unfold Draft.yields Expression.Builder.climbsOver
    cases above : w.1.token.kind <;> simp [kind, Token.Kind.rank?]
  rw [List.nil_append, Waiting.closeWhile_stop stops] at later
  exact right.behind rank (Nat.le_refl 3) (fun _ _ => .inl (Nat.le_refl 3)) later

theorem GoesOn.not_letter {next : Token} (goesOn : GoesOn (next :: rest)) : next.kind ≠ .letter := by
  obtain ⟨_, _, same, behind⟩ := goesOn
  obtain rfl := (List.cons.inj same).1
  intro letter
  simp [letter, Token.Kind.IsBehind, Token.Kind.rank?] at behind

theorem GoesOn.not_call {next : Token} (goesOn : GoesOn (next :: rest)) : ¬ next.kind.IsCall := by
  obtain ⟨_, _, same, behind⟩ := goesOn
  obtain rfl := (List.cons.inj same).1
  rintro (h | h | h | h) <;> simp [h, Token.Kind.IsBehind, Token.Kind.rank?] at behind

theorem crosses_number (kind : token.kind = .number) (goesOn : GoesOn rest) :
    Crosses 4 (token :: rest) rest (.leaf { token } : Tree (Label ν)) := by
  refine crosses_token fun run => ?_
  cases run with
  | number _ run => exact run
  | factor _ call => exact absurd call goesOn.not_call
  | coefficient _ letter => exact absurd letter goesOn.not_letter
  | sign sign => rcases sign with h | h <;> simp [kind] at h
  | call call => simp [kind, Token.Kind.IsCall] at call
  | factorial other | negative other | opening other | letter other | power other | raised other =>
    simp [kind] at other

theorem crosses_factorial (kind : token.kind = .factorial) :
    Crosses 4 (token :: rest) rest (.ofFactorial token : Tree (Label ν)) := by
  refine crosses_token fun run => ?_
  cases run with
  | factorial _ run => exact run
  | sign sign => rcases sign with h | h <;> simp [kind] at h
  | call call => simp [kind, Token.Kind.IsCall] at call
  | number other | factor other | coefficient other | negative other | opening other
  | letter other | power other | raised other => simp [kind] at other

theorem CrossesArgument.call (kind : token.kind.IsCall) (argument : CrossesArgument tokens rest x) :
    Crosses 4 (token :: tokens) rest (x.applyCall (some token)) := by
  refine crosses_token fun run => ?_
  cases run with
  | call _ run => exact argument run
  | sign sign => rcases sign with h | h <;> simp [h, Token.Kind.IsCall] at kind
  | number other | factor other | coefficient other | factorial other | negative other
  | opening other | letter other | power other | raised other => simp [other, Token.Kind.IsCall] at kind

/-- What a bracket closes is crossed with it. -/
theorem Crosses.closed {closing : Token} (inner : Crosses 0 tokens (closing :: rest) x)
    (closes : closing.kind = .closing) {frame : Frame ν} {frames : List (Frame ν)}
    {r : Tree (Label ν)} (run : Run (frame :: frames) [] (.gap none none) tokens r) :
    Run frames frame.waiting (.full (frame.fill x)) rest r := by
  obtain ⟨added, last, -, rfl, later⟩ := inner (fun _ absurd => (by cases absurd)) run
  rw [List.append_nil] at later
  cases later with
  | closing _ later => exact later
  | operator rank => simp [closes, Token.Kind.rank?] at rank

theorem Crosses.bracket {opening closing : Token} (opens : opening.kind = .opening)
    (closes : closing.kind = .closing) (inner : Crosses 0 tokens (closing :: rest) x) :
    CrossesArgument (opening :: tokens) rest x := by
  intro frames waiting call r run
  cases run with
  | opening _ run => exact inner.closed closes run
  | sign sign => rcases sign with h | h <;> simp [opens] at h
  | call call => simp [opens, Token.Kind.IsCall] at call
  | number other | factor other | coefficient other | factorial other | negative other
  | letter other | power other | raised other => simp [opens] at other

/-- A coefficient is taken up before its letter. -/
theorem Run.coefficient_taken {coefficient : Option Token}
    {letter : Token} (number : ∀ n ∈ coefficient, n.kind = .number)
    (kind : letter.kind = .letter) {frames : List (Frame ν)}
    {waiting : List (Waiting (Label ν))} {call : Option Token} {r : Tree (Label ν)}
    (run : Run frames waiting (.gap call none) (coefficient.toList ++ letter :: rest) r) :
    Run frames waiting (.gap call coefficient) (letter :: rest) r := by
  cases coefficient with
  | none => exact run
  | some n =>
    have digits := number n rfl
    cases run with
    | coefficient _ _ run => exact run
    | number _ run => cases run with
      | finish other => simp [kind] at other
      | closing other => simp [kind] at other
      | operator rank => simp [kind, Token.Kind.rank?] at rank
    | factor _ call => simp [kind, Token.Kind.IsCall] at call
    | sign sign => rcases sign with h | h <;> simp [digits] at h
    | call call => simp [digits, Token.Kind.IsCall] at call
    | factorial other | negative other | opening other | letter other | power other
    | raised other =>
      simp [digits] at other

/-- A letter is crossed with its exponent, or up to the bracket of its exponent. -/
theorem Run.letter_cases {letter : Token} (kind : letter.kind = .letter) {frames : List (Frame ν)}
    {waiting : List (Waiting (Label ν))} {call held : Option Token} {r : Tree (Label ν)}
    (run : Run frames waiting (.gap call held) (letter :: rest) r) :
    (¬ TakesExponent rest ∧ Run frames waiting (.full (Tree.applyCall call (.ofLetter
      (held.getD (.inserted .number "1")) letter (.inserted .power "^")
      (.leaf { token := .inserted .number "1" })))) rest r) ∨
    (∃ caret exponent after, rest = caret :: exponent :: after ∧ caret.kind = .power ∧
    exponent.kind = .number ∧
      Run frames waiting
      (.full (Tree.applyCall call (.ofLetter (held.getD (.inserted .number "1")) letter caret
        (.leaf { token := exponent })))) after r) ∨
    ∃ caret opening after, rest = caret :: opening :: after ∧ caret.kind = .power ∧ opening.kind = .opening ∧
      Run ({ waiting, call, base := some (held.getD (.inserted .number "1"), letter, caret) } :: frames) []
        (.gap none none) after r := by
  cases run with
  | letter _ bare run => exact .inl ⟨bare, run⟩
  | power _ isCaret digits run => exact .inr (.inl ⟨_, _, _, rfl, isCaret, digits, run⟩)
  | raised _ isCaret opens run => exact .inr (.inr ⟨_, _, _, rfl, isCaret, opens, run⟩)
  | sign sign => rcases sign with h | h <;> simp [kind] at h
  | call call => simp [kind, Token.Kind.IsCall] at call
  | number other | factor other | coefficient other | factorial other | negative other
  | opening other =>
    simp [kind] at other

variable {coefficient : Option Token} {letter caret : Token}

theorem crossesArgument_letter (number : ∀ n ∈ coefficient, n.kind = .number) (kind : letter.kind = .letter)
    (bare : ¬ TakesExponent rest) : CrossesArgument (coefficient.toList ++ letter :: rest) rest
      (.ofLetter (coefficient.getD (.inserted .number "1")) letter (.inserted .power "^")
        (.leaf { token := .inserted .number "1" }) : Tree (Label ν)) := by
  intro frames waiting call r run
  rcases (run.coefficient_taken number kind).letter_cases
    kind with ⟨-, later⟩ | ⟨_, _, _, rfl, power, digits, -⟩ | ⟨_, _, _, rfl, power, opens, -⟩
  · exact later
  · exact absurd ⟨power, .inl digits⟩ bare
  · exact absurd ⟨power, .inr opens⟩ bare

theorem crossesArgument_power {exponent : Token} (number : ∀ n ∈ coefficient, n.kind = .number)
    (kind : letter.kind = .letter) (isCaret : caret.kind = .power)
    (digits : exponent.kind = .number) :
    CrossesArgument (coefficient.toList ++ letter :: caret :: exponent :: rest) rest
      (.ofLetter (coefficient.getD (.inserted .number "1")) letter caret
      (.leaf { token := exponent }) : Tree (Label ν)) := by
  intro frames waiting call r run
  rcases (run.coefficient_taken number kind).letter_cases kind with ⟨bare, -⟩ | ⟨_, _, _, same, -, -, later⟩ |
    ⟨_, _, _, same, -, opens, -⟩
  · exact absurd ⟨isCaret, .inl digits⟩ bare
  · obtain ⟨rfl, rfl, rfl⟩ : _ ∧ _ ∧ _ := by simpa using same
    exact later
  · obtain ⟨rfl, rfl, rfl⟩ : _ ∧ _ ∧ _ := by simpa using same
    simp [digits] at opens

theorem Crosses.raised {opening closing : Token} (number : ∀ n ∈ coefficient, n.kind = .number)
    (kind : letter.kind = .letter) (isCaret : caret.kind = .power) (opens : opening.kind = .opening)
    (closes : closing.kind = .closing) (inner : Crosses 0 tokens (closing :: rest) x) :
    CrossesArgument (coefficient.toList ++ letter :: caret :: opening :: tokens) rest
      (.ofLetter (coefficient.getD (.inserted .number "1")) letter caret x) := by
  intro frames waiting call r run
  rcases (run.coefficient_taken number kind).letter_cases
    kind with ⟨bare, -⟩ | ⟨_, _, _, same, -, digits, -⟩ | ⟨_, _, _, same, -, -, later⟩
  · exact absurd ⟨isCaret, .inr opens⟩ bare
  · obtain ⟨rfl, rfl, rfl⟩ : _ ∧ _ ∧ _ := by simpa using same
    simp [digits] at opens
  · obtain ⟨rfl, rfl, rfl⟩ : _ ∧ _ ∧ _ := by simpa using same
    exact inner.closed closes later

theorem goesOn_operator (rank : token.kind.rank?.isSome) : GoesOn (token :: rest) := ⟨_, _, rfl, .inl rank⟩

theorem goesOn_closing (closes : token.kind = .closing) : GoesOn (token :: rest) :=
  ⟨_, _, rfl, .inr (.inl closes)⟩

/-- A run goes over whatever the grammar reads, and leaves the tree that it reads. -/
theorem Reads.crosses (reads : Reads tier tokens rest x) (goesOn : GoesOn rest) :
    (tier ≤ 4 → Crosses tier tokens rest x) ∧ (tier = 5 → CrossesArgument tokens rest x) := by
  induction reads with
  | @tighter low _ _ _ reads ih =>
    obtain ⟨operators, argument⟩ := ih goesOn
    have := reads.tier_le
    refine ⟨fun _ => ?_, by omega⟩
    by_cases top : low = 4
    · subst top
      exact (argument rfl).crosses
    · exact (operators (by omega)).looser
  | operator rank groupsLeft left right ihl ihr =>
    have operators := (ihl (goesOn_operator (by simp [rank]))).1 (by omega)
    exact ⟨fun _ => operators.operator rank groupsLeft ((ihr goesOn).1 (by omega)), by omega⟩
  | power kind left right ihl ihr =>
    have operands := (ihl (goesOn_operator (by simp [kind, Token.Kind.rank?]))).1 (Nat.le_refl 4)
    exact ⟨fun _ => operands.power kind ((ihr goesOn).1 (by omega)), by omega⟩
  | number kind => exact ⟨fun _ => crosses_number kind goesOn, by omega⟩
  | factorial kind => exact ⟨fun _ => crosses_factorial kind, by omega⟩
  | call kind argument ih => exact ⟨fun _ => ((ih goesOn).2 rfl).call kind, by omega⟩
  | bracket opens closes inner ih =>
    exact ⟨by omega, fun _ => ((ih (goesOn_closing closes)).1 (by omega)).bracket opens closes⟩
  | letter number kind bare => exact ⟨by omega, fun _ => crossesArgument_letter number kind bare⟩
  | letterPower number kind isCaret digits =>
    exact ⟨by omega, fun _ => crossesArgument_power number kind isCaret digits⟩
  | letterRaised number kind isCaret opens closes inner ih =>
    exact ⟨by omega,
      fun _ => ((ih (goesOn_closing closes)).1 (by omega)).raised number kind isCaret opens closes⟩

end Uniqueness

def IsReading (tokens : List Token) (x : Tree (Label ν)) : Prop :=
  ∃ finish : Token, finish.kind = .finish ∧ Reads 0 tokens [finish] x

/-- Without signs, and without a number in front of a keyword, a text that denotes an expression
denotes the one tree that the usual grammar reads from its tokens. -/
theorem Expression.ofText_reads {text : String} {tokens : List Token}
    {e : Expression ν} (scanned : Token.scan text = .ok tokens) (usual : Token.IsUsual none tokens)
    (parsed : ofText text = .ok e) :
    ∃ x, e.Displays x ∧ ∀ y, IsReading tokens y ↔ y = x := by
  obtain ⟨x, built, displays⟩ := ofText_displays parsed
  have run := run_of_text scanned built
  refine ⟨x, displays, fun y => ⟨?_, ?_⟩⟩
  · rintro ⟨finish, kind, reads⟩
    have crosses := (reads.crosses ⟨finish, [], rfl, .inr (.inr kind)⟩).1 (Nat.zero_le 4)
    obtain ⟨added, last, -, rfl, later⟩ := crosses (fun _ absurd => (by cases absurd)) run
    rw [List.append_nil] at later
    cases later with
    | finish => rfl
    | operator rank => simp [kind, Token.Kind.rank?] at rank
  · rintro rfl
    exact run.reads usual .nil (Slot.stands_gap .nil fun _ absurd => (by cases absurd))

/-- Differences group left, also around a product with a variable term. -/
theorem Expression.ofText_reads_difference :
    let tokens : List Token :=
  [⟨.number, "8", some 0⟩, ⟨.minus, "-", some 1⟩, ⟨.number, "2", some 2⟩, ⟨.letter, "x", some 3⟩,
    ⟨.power, "^", some 4⟩, ⟨.number, "2", some 5⟩, ⟨.times, "*", some 6⟩, ⟨.number, "3", some 7⟩,
    ⟨.minus, "-", some 8⟩, ⟨.number, "1", some 9⟩, ⟨.finish, "", some 10⟩]
    ∃ e : Expression Unit, Token.scan "8-2x^2*3-1" = .ok tokens ∧ Token.IsUsual none tokens ∧
    ofText "8-2x^2*3-1" = .ok e ∧
      ∃ x, e.Displays x ∧ ∀ y, IsReading tokens y ↔ y = x := by
  intro tokens
  have scanned : Token.scan "8-2x^2*3-1" = .ok tokens := by decide +kernel
  have usual : Token.IsUsual none tokens := by
    simp [tokens, Token.IsUsual, Token.AwaitsOperand, Token.Kind.rank?, Token.Kind.IsCall]
  have accepted :
      (ofText "8-2x^2*3-1" : Except GrammarError (Expression Unit)).toOption.isSome := by
    decide +kernel
  cases parsed : (ofText "8-2x^2*3-1" : Except GrammarError (Expression Unit)) with
  | error error => simp [parsed, Except.toOption] at accepted
  | ok e => exact ⟨e, scanned, usual, rfl, ofText_reads scanned usual parsed⟩

end Stepwise
