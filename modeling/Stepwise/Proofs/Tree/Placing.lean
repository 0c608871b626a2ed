import Stepwise.Proofs.Tree.Grammar

/-! What the building of a tree does with one token. Main statement: a token that is placed is an
operand where one has to come next, an operator behind one, or one of the brackets, signs and
keywords where they belong. -/
namespace Stepwise.Draft

open Expression (maxNesting)
open Expression.Builder (isLoneNumber fail)

variable {ν : Type}

/-- What placing a token that `rest` follows comes to, and how many tokens of `rest` are taken with it. -/
inductive Placed (d : Draft (Label ν)) (token : Token) (rest : List Token) : Draft (Label ν) → Nat → Prop
  | operand (awaiting : d.awaiting)
      (kind : token.kind = .number ∨ token.kind = .letter ∨ token.kind = .polynomial) :
      Placed d token rest (d.attach (.leaf { token })) 0
  | factorial (awaiting : d.awaiting) (kind : token.kind = .factorial) :
      Placed d token rest (d.attach (.ofFactorial token)) 0
  | negative {number : Token} {after : List Token} (awaiting : d.awaiting) (kind : token.kind = .minus)
      (follows : rest = number :: after) (digits : number.kind = .number) (lone : isLoneNumber rest) :
      Placed d token rest (d.attach (.leaf { token := ⟨.number, "-" ++ number.text, token.position⟩ })) 1
  | sign (awaiting : d.awaiting) (kind : token.kind = .plus ∨ token.kind = .minus)
      (composite : token.kind = .minus → isLoneNumber rest = false) :
      Placed d token rest (d.placeSign token) 0
  | operator (behind : d.awaiting = false) (kind : token.kind.rank?.isSome) :
      Placed d token rest (d.placeOperator token) 0
  | opening (awaiting : d.awaiting) (kind : token.kind = .opening) (room : d.outer.length + 1 ≤ maxNesting) :
      Placed d token rest ⟨{}, d.level :: d.outer⟩ 0
  | closing {level : Spine (Label ν)} {outer : List (Spine (Label ν))} {x : Tree (Label ν)}
      (kind : token.kind = .closing)
      (around : d.outer = level :: outer) (whole : d.level.tree? = some x) :
      Placed d token rest (attach ⟨level, outer⟩ (x.applyCall level.call)) 0
  | call {next : Token} {after : List Token} (awaiting : d.awaiting) (kind : token.kind.IsCall)
      (follows : rest = next :: after) (bracket : next.kind = .opening) :
      Placed d token rest { d with level := { d.level with call := some token } } 0

variable {d later : Draft (Label ν)} {token : Token} {rest : List Token} {taken : Nat}

theorem number_of_isLoneNumber {tokens : List Token} (lone : isLoneNumber tokens) :
    ∃ number after, tokens = number :: after ∧ number.kind = .number := by
  obtain ⟨number, head, -, kind⟩ := isLoneNumber_head lone
  obtain ⟨after, same⟩ := List.head?_eq_some_iff.mp head
  exact ⟨number, after, same, kind⟩

theorem placed_operand
    (kind : token.kind = .number ∨ token.kind = .letter ∨ token.kind = .polynomial ∨
      token.kind = .factorial) (placed : (d.operand token).map (·, 0) = .ok (later, taken)) :
    d.Placed token rest later taken := by
  unfold operand at placed
  split at placed
  · cases placed
  · next awaiting =>
    have awaiting : d.awaiting := by simpa using awaiting
    split at placed
    · next factorial =>
      cases placed
      exact .factorial awaiting factorial
    · next other =>
      cases placed
      exact .operand awaiting (by simpa [other] using kind)

theorem placed_operator (kind : token.kind.rank?.isSome)
    (placed : d.operator token rest = .ok (later, taken)) :
    d.Placed token rest later taken := by
  unfold operator at placed
  split at placed
  · next behind =>
    cases placed
    exact .operator (by simpa using behind) kind
  · next awaiting =>
    have awaiting : d.awaiting := by simpa using awaiting
    split at placed
    · next negative =>
      cases placed
      obtain ⟨number, after, rfl, digits⟩ := number_of_isLoneNumber negative.2
      exact .negative awaiting negative.1 rfl digits negative.2
    · next composite =>
      split at placed
      · next sign =>
        cases placed
        exact .sign awaiting sign fun minus => Bool.eq_false_iff.mpr fun lone => composite ⟨minus, lone⟩
      · cases placed

theorem placed_opening (kind : token.kind = .opening)
    (placed : (d.openBracket token).map (·, 0) = .ok (later, taken)) :
    d.Placed token rest later taken := by
  unfold openBracket at placed
  split at placed
  · cases placed
  · next awaiting =>
    split at placed
    · cases placed
    · next room =>
      cases placed
      exact .opening (by simpa using awaiting) kind (Nat.le_of_not_gt room)

theorem placed_closing (kind : token.kind = .closing)
    (placed : (d.closeBracket token rest.head?).map (·, 0) = .ok (later, taken)) :
    d.Placed token rest later taken := by
  unfold closeBracket at placed
  split at placed
  · cases placed
  · next level outer around =>
    split at placed
    · cases placed
    · next x whole =>
      cases placed
      exact .closing kind around whole

theorem placed_call (kind : token.kind.IsCall)
    (placed : (d.openCall token rest.head?).map (·, 0) = .ok (later, taken)) :
    d.Placed token rest later taken := by
  unfold openCall at placed
  split at placed
  · cases placed
  · next awaiting =>
    split at placed
    · next bracket =>
      cases placed
      cases rest with
      | nil => cases bracket
      | cons next after => exact .call (by simpa using awaiting) kind rfl (by simpa using bracket)
    · cases placed

/-- Placing a token has one of the forms above, or fails. -/
theorem placed_of_place (kind : token.kind ≠ .finish) (placed : d.place token rest = .ok (later, taken)) :
    d.Placed token rest later taken := by
  unfold place at placed
  split at placed
  · next opening => exact placed_opening opening placed
  · next closing => exact placed_closing closing placed
  iterate 4
    · next call => exact placed_call (by simp [Token.Kind.IsCall, call]) placed
  iterate 4
    · next operand => exact placed_operand (by simp [operand]) placed
  iterate 6
    · next operator => exact placed_operator (by simp [operator, Token.Kind.rank?]) placed
  · next finish => exact absurd finish kind

/-- Behind an operand, an operator or a closing bracket has to come next. -/
theorem Placed.behind (placed : d.Placed token rest later taken) (full : d.awaiting = false) :
    token.kind.rank?.isSome ∨ token.kind = .closing := by
  cases placed with
  | operator _ kind => exact .inl kind
  | closing kind => exact .inr kind
  | operand awaiting | factorial awaiting | negative awaiting | sign awaiting | opening awaiting
  | call awaiting =>
    simp [full] at awaiting

/-- Before its end, a text is built token by token. -/
theorem build_placed {x : Tree (Label ν)} (kind : token.kind ≠ .finish)
    (built : d.build (token :: rest) = .ok x) :
    ∃ later taken, d.Placed token rest later taken ∧ later.build (rest.drop taken) = .ok x := by
  rw [build, if_neg kind] at built
  split at built
  · next later taken placed => exact ⟨later, taken, placed_of_place kind placed, built⟩
  · cases built

/-- At its end, what was placed last stands outside all brackets. -/
theorem build_finished {x : Tree (Label ν)} (kind : token.kind = .finish)
    (built : d.build (token :: rest) = .ok x) :
    d.outer = [] ∧ d.level.tree? = some x := by
  rw [build, if_pos kind, complete] at built
  split at built
  · cases built
  · next outside =>
    split at built
    · next whole =>
      cases built
      exact ⟨by simpa using outside, whole⟩
    · cases built

end Stepwise.Draft
