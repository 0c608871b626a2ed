import Stepwise.Proofs.Phrase.Build
import Stepwise.Proofs.Token.Ending
import Stepwise.Proofs.Tree.Building
import Stepwise.Proofs.Tree.Placing

/-! The texts that denote an expression. Main statement: once the implicit products of a text are
spelled out, it denotes an expression exactly if its tokens form operands with operators between
them, and no bracket is nested too deep. -/
namespace Stepwise

namespace Token

inductive Part where
  | atom
  | operand
  | group

inductive Forms : Part → List Token → Prop
  | single {token : Token} (kind : token.kind = .number ∨ token.kind = .factorial ∨ token.kind = .letter) :
      Forms .atom [token]
  | bracket {opening closing : Token} {inner : List Token} (opens : opening.kind = .opening)
      (closes : closing.kind = .closing)
      (forms : Forms .group inner) : Forms .atom (opening :: (inner ++ [closing]))
  | call {keyword opening closing : Token} {inner : List Token} (kind : keyword.kind.IsCall)
      (opens : opening.kind = .opening)
      (closes : closing.kind = .closing) (forms : Forms .group inner) :
      Forms .atom (keyword :: opening :: (inner ++ [closing]))
  | unsigned {tokens : List Token} (forms : Forms .atom tokens) : Forms .operand tokens
  | sign {token : Token} {tokens : List Token} (kind : token.kind = .plus ∨ token.kind = .minus)
      (forms : Forms .operand tokens) : Forms .operand (token :: tokens)
  | alone {tokens : List Token} (forms : Forms .operand tokens) : Forms .group tokens
  | operator {left right : List Token} {token : Token} (kind : token.kind.rank?.isSome)
      (leftForms : Forms .group left)
      (rightForms : Forms .operand right) : Forms .group (left ++ token :: right)

theorem Forms.not_nil {part : Part} : ¬ Forms part [] := by
  intro forms
  generalize empty : [] = tokens at forms
  induction forms with
  | single | bracket | call | sign => cases empty
  | unsigned forms ih => exact ih empty
  | alone forms ih => exact ih empty
  | operator => simp at empty

/-- An operand that starts with a number is this number. -/
theorem Forms.number_alone {number : Token} {rest : List Token} (kind : number.kind = .number)
    (forms : Forms .operand (number :: rest)) : rest = [] := by
  cases forms with
  | unsigned atom =>
    cases atom with
    | single => rfl
    | bracket opens => simp [kind] at opens
    | call call => simp [kind, Kind.IsCall] at call
  | sign sign => simp [kind] at sign

/-- The tokens that may follow an operand with `depth` brackets open, up to the end of the text. -/
inductive Completes : Nat → List Token → Prop
  | finish {token : Token} (kind : token.kind = .finish) : Completes 0 [token]
  | operator {depth : Nat} {token : Token} {operand rest : List Token} (kind : token.kind.rank?.isSome)
      (forms : Forms .operand operand) (completes : Completes depth rest) :
      Completes depth (token :: (operand ++ rest))
  | closing {depth : Nat} {token : Token} {rest : List Token} (kind : token.kind = .closing)
      (completes : Completes depth rest) : Completes (depth + 1) (token :: rest)

/-- Between brackets there is a group. -/
theorem Completes.bracket {depth : Nat} {tokens rest : List Token} (completes : Completes (depth + 1) rest)
    (forms : Forms .group tokens) : ∃ inner closing later, tokens ++ rest = inner ++ closing :: later ∧
      Forms .group inner ∧ closing.kind = .closing ∧ Completes depth later := by
  generalize deeper : depth + 1 = level at completes
  induction completes generalizing tokens with
  | finish => cases deeper
  | operator kind operand completes ih =>
    obtain ⟨inner, closing, later, same, found⟩ := ih (.operator kind forms operand) deeper
    exact ⟨inner, closing, later, by rw [← same, List.append_assoc, List.cons_append], found⟩
  | closing kind completes _ =>
    obtain rfl := Nat.succ.inj deeper
    exact ⟨tokens, _, _, rfl, forms, kind, completes⟩

/-- Outside all brackets there is a group in front of the end of the text. -/
theorem Completes.whole {tokens rest : List Token} (completes : Completes 0 rest)
    (forms : Forms .group tokens) :
    ∃ group finish, tokens ++ rest = group ++ [finish] ∧ Forms .group group ∧ finish.kind = .finish := by
  generalize outside : 0 = level at completes
  induction completes generalizing tokens with
  | finish kind => exact ⟨tokens, _, rfl, forms, kind⟩
  | operator kind operand completes ih =>
    obtain ⟨group, finish, same, found⟩ := ih (.operator kind forms operand) outside
    exact ⟨group, finish, by rw [← same, List.append_assoc, List.cons_append], found⟩
  | closing => cases outside

end Token

namespace Draft

open Token (Forms Completes nesting nesting_opening nesting_closing nesting_other le_nesting)
open Expression (maxNesting)
open Expression.Builder (isLoneNumber)

variable {ν : Type}

/-- Where an operand has to come next, the tokens leave one that is placed. -/
def Accepts (ν : Type) (tokens : List Token) : Prop :=
  ∀ (waiting : List (Waiting (Label ν))) (outer : List (Spine (Label ν))) (rest : List Token),
    nesting outer.length (tokens ++ rest) ≤ maxNesting → nesting outer.length rest ≤ maxNesting ∧
      ∃ left last, build ⟨{ waiting }, outer⟩ (tokens ++ rest) =
      build ⟨{ waiting := left, last := some last }, outer⟩ rest

theorem accepts_single {token : Token}
    (kind : token.kind = .number ∨ token.kind = .factorial ∨ token.kind = .letter) :
    Accepts ν [token] := by
  intro waiting outer rest shallow
  refine ⟨Nat.le_trans (nesting_other ?_ ?_) shallow, waiting, ?_⟩
  · rcases kind with h | h | h <;> simp [h]
  · rcases kind with h | h | h <;> simp [h]
  · rcases kind with number | factorial | letter
    · exact ⟨_, build_operand (.inl number)⟩
    · refine ⟨.ofFactorial token, build_cons (by simp [factorial]) ?_⟩
      simp [place, operand, awaiting, attach, factorial, Except.map]
    · exact ⟨_, build_operand (.inr letter)⟩

/-- A group between brackets leaves one operand, whatever keyword stands in front of it. -/
theorem Accepts.enclosed {inner : List Token} (accepts : Accepts ν inner) {opening closing : Token}
    (opens : opening.kind = .opening) (closes : closing.kind = .closing) (waiting : List (Waiting (Label ν)))
    (call : Option Token) (outer : List (Spine (Label ν))) {rest : List Token}
    (shallow : nesting outer.length (opening :: (inner ++ closing :: rest)) ≤ maxNesting) :
    nesting outer.length rest ≤ maxNesting ∧
      ∃ last, build ⟨{ waiting, call }, outer⟩ (opening :: (inner ++ closing :: rest)) =
      build ⟨{ waiting, last := some last }, outer⟩ rest := by
  have inside := Nat.le_trans (nesting_opening opens) shallow
  obtain ⟨later, left, last, goes⟩ := accepts [] ({ waiting, call } :: outer) (closing :: rest) inside
  refine ⟨Nat.le_trans (nesting_closing closes) later, (Waiting.close left last).applyCall call, ?_⟩
  rw [build_opening opens (Nat.le_trans (le_nesting ..) inside), goes, build_closing closes]

theorem Accepts.sign {token : Token} {tokens : List Token} (accepts : Accepts ν tokens)
    (kind : token.kind = .plus ∨ token.kind = .minus) (forms : Forms .operand tokens) :
    Accepts ν (token :: tokens) := by
  intro waiting outer rest shallow
  have behind : nesting outer.length (tokens ++ rest) ≤ maxNesting :=
    Nat.le_trans (nesting_other (by rcases kind with h | h <;> simp [h])
      (by rcases kind with h | h <;> simp [h])) shallow
  obtain ⟨first, more, rfl⟩ :=
    List.exists_cons_of_ne_nil (l := tokens) fun empty => Forms.not_nil (empty ▸ forms)
  by_cases negative : token.kind = .minus ∧ isLoneNumber (first :: more ++ rest)
  · -- the minus sign and the number become one operand
    obtain ⟨number, after, same, digits⟩ := number_of_isLoneNumber negative.2
    obtain rfl := (List.cons.inj same).1
    obtain rfl := forms.number_alone digits
    exact ⟨Nat.le_trans (nesting_other (by simp [digits]) (by simp [digits])) behind, waiting, _,
      build_negative negative.1 negative.2⟩
  · have composite (minus : token.kind = .minus) : isLoneNumber (first :: more ++ rest) = false := by
      simpa [minus] using negative
    rw [List.cons_append, build_sign kind composite]
    exact accepts _ outer rest behind

theorem Accepts.operator {left right : List Token} {token : Token} (kind : token.kind.rank?.isSome)
    (acceptsl : Accepts ν left) (acceptsr : Accepts ν right) : Accepts ν (left ++ token :: right) := by
  intro waiting outer rest shallow
  rw [List.append_assoc, List.cons_append] at shallow ⊢
  obtain ⟨later, waiting, last, goes⟩ := acceptsl waiting outer _ shallow
  have behind : nesting outer.length (right ++ rest) ≤ maxNesting := by
    refine Nat.le_trans (nesting_other ?_ ?_) later <;> intro same <;> simp [same, Token.Kind.rank?] at kind
  rw [goes, build_operator kind]
  exact acceptsr _ outer rest behind

/-- Whatever the grammar forms is accepted. -/
theorem accepts_of_forms {part : Token.Part} {tokens : List Token} (forms : Forms part tokens) :
    Accepts ν tokens := by
  induction forms with
  | single kind => exact accepts_single kind
  | bracket opens closes forms ih =>
    intro waiting outer rest shallow
    rw [List.cons_append, List.append_assoc] at shallow ⊢
    obtain ⟨later, last, goes⟩ := ih.enclosed opens closes waiting none outer shallow
    exact ⟨later, waiting, last, goes⟩
  | @call keyword opening closing inner kind opens closes forms ih =>
    intro waiting outer rest shallow
    rw [List.cons_append, List.cons_append, List.append_assoc] at shallow ⊢
    have behind := Nat.le_trans (nesting_other (by rcases kind with h | h | h | h <;> simp [h])
      (by rcases kind with h | h | h | h <;> simp [h])) shallow
    obtain ⟨later, last, goes⟩ := ih.enclosed opens closes waiting (some keyword) outer behind
    refine ⟨later, waiting, last, ?_⟩
    rw [build_call kind opens]
    exact goes
  | unsigned forms ih => exact ih
  | sign kind forms ih => exact ih.sign kind forms
  | alone forms ih => exact ih
  | operator kind _ _ ihl ihr => exact ihl.operator kind ihr

/-- What is left of a text that is built to its end: an operand where one has to come next, after a
keyword a bracketed group, and behind an operand what completes the text. -/
structure Continues (d : Draft (Label ν)) (tokens : List Token) : Prop where
  operand : d.awaiting → d.level.call = none →
    ∃ operand rest, tokens = operand ++ rest ∧ Forms .operand operand ∧ Completes d.outer.length rest
  bracket : ∀ {opening : Token} {inside : List Token}, d.awaiting → tokens = opening :: inside →
    opening.kind = .opening →
    ∃ inner closing rest, inside = inner ++ closing :: rest ∧ Forms .group inner ∧ closing.kind = .closing ∧
      Completes d.outer.length rest
  behind : d.awaiting = false → Completes d.outer.length tokens
  shallow : d.outer.length ≤ maxNesting → nesting d.outer.length tokens ≤ maxNesting

variable {d later : Draft (Label ν)} {token : Token} {rest : List Token} {taken : Nat}

theorem awaiting_of_tree {x : Tree (Label ν)} (whole : d.level.tree? = some x) : d.awaiting = false := by
  cases last : d.level.last with
  | none => simp [Spine.tree?, last] at whole
  | some x => simp [awaiting, last]

/-- An operand that is the next token, or this token with the one behind it. -/
theorem continues_operand {operand behind : List Token} (awaiting : d.awaiting)
    (other : token.kind ≠ .opening) (tokens : token :: rest = operand ++ behind)
    (forms : Forms .operand operand) (completes : Completes d.outer.length behind)
    (shallow : d.outer.length ≤ maxNesting → nesting d.outer.length (token :: rest) ≤ maxNesting) :
    d.Continues (token :: rest) where
  operand _ _ := ⟨operand, behind, tokens, forms, completes⟩
  bracket _ same opens := absurd ((List.cons.inj same).1 ▸ opens) other
  behind placed := by simp [awaiting] at placed
  shallow := shallow

theorem nesting_le {depth : Nat} {tokens : List Token}
    (other : token.kind ≠ .opening) (other' : token.kind ≠ .closing) (room : depth ≤ maxNesting)
    (shallow : nesting depth tokens ≤ maxNesting) :
    nesting depth (token :: tokens) ≤ maxNesting := by
  rw [nesting, if_neg other, if_neg other']
  exact Nat.max_le.mpr ⟨room, shallow⟩

/-- One token in front of what continues a tree in the making. -/
theorem Placed.continues (placed : d.Placed token rest later taken) (kind : token.kind ≠ .polynomial)
    (continues : later.Continues (rest.drop taken)) : d.Continues (token :: rest) := by
  cases placed with
  | operand awaiting operand =>
    have other : token.kind ≠ .opening ∧ token.kind ≠ .closing := by
      rcases operand with h | h | h <;> simp [h]
    exact continues_operand awaiting other.1 rfl
      (.unsigned (.single (by rcases operand with h | h | h <;> simp_all))) (continues.behind rfl)
      fun room => nesting_le other.1 other.2 room (continues.shallow room)
  | factorial awaiting factorial =>
    exact continues_operand awaiting (by simp [factorial]) rfl (.unsigned (.single (.inr (.inl factorial))))
      (continues.behind rfl) fun room =>
      nesting_le (by simp [factorial]) (by simp [factorial]) room (continues.shallow room)
  | @negative number after awaiting minus follows digits =>
    subst follows
    exact continues_operand awaiting (by simp [minus]) rfl
      (.sign (.inr minus) (.unsigned (.single (.inl digits)))) (continues.behind rfl) fun room =>
      nesting_le (by simp [minus]) (by simp [minus]) room
      (nesting_le (by simp [digits]) (by simp [digits]) room (continues.shallow room))
  | sign awaiting sign =>
    have other : token.kind ≠ .opening ∧ token.kind ≠ .closing := by rcases sign with h | h <;> simp [h]
    obtain ⟨operand, behind, same, forms, completes⟩ := continues.operand rfl rfl
    rw [List.drop_zero] at same
    exact continues_operand awaiting other.1 (by rw [same]; rfl) (.sign sign forms) completes
      fun room => nesting_le other.1 other.2 room (continues.shallow room)
  | operator placed rank =>
    have other : token.kind ≠ .opening ∧ token.kind ≠ .closing := by
      constructor <;> intro same <;> simp [same, Token.Kind.rank?] at rank
    obtain ⟨x, last⟩ : ∃ x, d.level.last = some x := by
      simpa [awaiting, Option.isSome_iff_exists] using placed
    have awaits : (d.placeOperator token).awaiting ∧ (d.placeOperator token).level.call = none ∧
        (d.placeOperator token).outer = d.outer := by
      simp [placeOperator, last, awaiting]
    obtain ⟨operand, behind, same, forms, completes⟩ := continues.operand awaits.1 awaits.2.1
    rw [List.drop_zero] at same
    rw [awaits.2.2] at completes
    refine ⟨fun awaiting => by simp [placed] at awaiting,
      fun awaiting => by simp [placed] at awaiting, fun _ => ?_, fun room => ?_⟩
    · rw [same]
      exact .operator rank forms completes
    · exact nesting_le other.1 other.2 room (awaits.2.2 ▸ continues.shallow (awaits.2.2 ▸ room))
  | opening awaiting opens room =>
    obtain ⟨operand, behind, same, forms, completes⟩ := continues.operand rfl rfl
    obtain ⟨inner, closing, later, split, group, closes, completes⟩ := completes.bracket (.alone forms)
    rw [List.drop_zero] at same
    rw [← same] at split
    refine ⟨fun _ _ => ⟨token :: (inner ++ [closing]),
      later, ?_, .unsigned (.bracket opens closes group), completes⟩, fun _ tokens _ =>
      ⟨inner, closing, later, (List.cons.inj tokens).2 ▸ split, group, closes, completes⟩,
      fun placed => by simp [awaiting] at placed, fun shallow => ?_⟩
    · rw [split, List.cons_append, List.append_assoc, List.singleton_append]
    · rw [nesting, if_pos opens]
      exact Nat.max_le.mpr ⟨shallow, continues.shallow room⟩
  | @closing level outer x closes around whole =>
    have placed := awaiting_of_tree whole
    refine ⟨fun awaiting => by simp [placed] at awaiting,
      fun awaiting => by simp [placed] at awaiting, fun _ => ?_, fun room => ?_⟩
    · rw [around]
      exact .closing closes (continues.behind rfl)
    · rw [around, List.length_cons] at room ⊢
      rw [nesting, if_neg (by simp [closes]), if_pos closes]
      exact Nat.max_le.mpr ⟨room, continues.shallow (Nat.le_of_succ_le room)⟩
  | @call next after awaiting call follows opens =>
    subst follows
    have other : token.kind ≠ .opening ∧ token.kind ≠ .closing := by
      rcases call with h | h | h | h <;> simp [h]
    obtain ⟨inner, closing, later, split, group, closes, completes⟩ := continues.bracket awaiting rfl opens
    exact continues_operand awaiting other.1
      (by rw [split]; simp) (.unsigned (.call call opens closes group)) completes fun room =>
      nesting_le other.1 other.2 room (continues.shallow room)

/-- The end of the text is not taken with a token. -/
theorem Placed.ended (placed : d.Placed token rest later taken) (ended : Token.Ended rest) :
    Token.Ended (rest.drop taken) := by
  cases placed with
  | negative awaiting minus follows digits =>
    subst follows
    exact ended.behind (by simp [digits])
  | operand | factorial | sign | operator | opening | closing | call => exact ended

/-- What is built to its end has the form that the grammar asks for. -/
theorem continues_of_build {tokens : List Token} {x : Tree (Label ν)} (ended : Token.Ended tokens)
    (kinds : ∀ token ∈ tokens, token.kind ≠ .polynomial) (built : d.build tokens = .ok x) :
    d.Continues tokens := by
  fun_induction build d tokens with
  | case1 d => cases ended
  | case2 d token rest finish =>
    have same : d.build (token :: rest) = .ok x := by rwa [build, if_pos finish]
    obtain ⟨outside, whole⟩ := build_finished finish same
    obtain rfl := ended.last finish
    have placed := awaiting_of_tree whole
    refine ⟨fun awaiting => by simp [placed] at awaiting,
      fun awaiting => by simp [placed] at awaiting, fun _ => ?_, fun room => ?_⟩
    · rw [outside]
      exact .finish finish
    · exact nesting_le (by simp [finish]) (by simp [finish]) room room
  | case3 d token rest other later taken goes ih =>
    have placed := placed_of_place other goes
    obtain ⟨kind, kinds⟩ := List.forall_mem_cons.mp kinds
    exact placed.continues kind
      (ih (placed.ended (ended.behind other)) (fun t member => kinds t (List.mem_of_mem_drop member)) built)
  | case4 d token rest other error goes => cases built

end Draft

/-- Once its implicit products are spelled out, a text denotes an expression exactly if its tokens
form a group that ends with the text, and no bracket is nested too deep. -/
theorem Expression.ofText_accepts {ν : Type} {text : String} {tokens : List Token}
    (read : Token.ofText text = .ok tokens) :
    (∃ e : Expression ν, ofText text = .ok e) ↔
      (∃ group finish, tokens = group ++ [finish] ∧ Token.Forms .group group ∧ finish.kind = .finish) ∧
        Token.nesting 0 tokens ≤ maxNesting := by
  have built : Tree.ofText (ν := ν) text = Draft.build {} tokens := by
    simp only [Tree.ofText, read, Tree.ofTokens]
  constructor
  · rintro ⟨e, parsed⟩
    obtain ⟨x, same, -⟩ := ofText_displays parsed
    have kinds : ∀ token ∈ tokens, token.kind ≠ .polynomial := fun token member kind => by
      simpa [Token.Spelled, kind] using (Token.ofText_spelled read).2 token member
    have continues := Draft.continues_of_build (Token.ofText_ended read) kinds (built ▸ same)
    obtain ⟨operand, rest, rfl, forms, completes⟩ := continues.operand rfl rfl
    obtain ⟨group, finish, split, found⟩ := completes.whole (.alone forms)
    exact ⟨⟨group, finish, split, found⟩, continues.shallow (Nat.zero_le _)⟩
  · rintro ⟨⟨group, finish, rfl, forms, isFinish⟩, shallow⟩
    obtain ⟨-, left, last, goes⟩ := Draft.accepts_of_forms (ν := ν) forms [] [] [finish] shallow
    have whole : Draft.build ({} : Draft (Label ν)) (group ++ [finish]) = .ok (Waiting.close left last) := by
      rw [show ({} : Draft (Label ν)) = ⟨{ waiting := [] }, []⟩ from rfl, goes, Draft.build, if_pos isFinish]
      rfl
    obtain ⟨e, parsed, -⟩ := ofText_of_tree (built.trans whole)
    exact ⟨e, parsed⟩

/-- A bracket that is written and one around a variable. -/
theorem Expression.ofText_accepts_call :
    let tokens : List Token :=
  [⟨.number, "2", some 0⟩, .inserted .times "*", ⟨.trig, "sin", some 1⟩, ⟨.opening, "(", some 4⟩,
    ⟨.minus, "-", some 5⟩, .inserted .opening "(", .inserted .number "1", .inserted .times "*",
    ⟨.letter, "x", some 6⟩, .inserted .power "^", .inserted .number "1", .inserted .closing ")",
    ⟨.closing, ")", some 7⟩, ⟨.finish, "", some 8⟩]
    Token.ofText "2sin(-x)" = .ok tokens ∧ Token.nesting 0 tokens = 2 ∧
      ((∃ e : Expression Unit, ofText "2sin(-x)" = .ok e) ↔
        (∃ group finish, tokens = group ++ [finish] ∧ Token.Forms .group group ∧ finish.kind = .finish) ∧
          Token.nesting 0 tokens ≤ maxNesting) :=
  ⟨by decide +kernel, by decide +kernel, ofText_accepts (by decide +kernel)⟩

end Stepwise
