import Stepwise.Proofs.Tree.Building
import Stepwise.Proofs.Tree.Render
import Stepwise.Proofs.Tree.Written

/-! What stands behind the keywords of a text. Main statement: a text is an error when one of its
keywords is followed by neither a written bracket nor a variable term. The brackets that spell out
the implicit product of a variable term pass for written ones, so `sin x` denotes what `sin(x)`
does. -/
namespace Stepwise

variable {ν : Type}

/-- The tokens start with what a keyword takes for its argument: a bracket, or a letter that may
have a coefficient. -/
def OpensArgument : List Token → Prop
  | [] => False
  | first :: rest =>
    first.kind = .opening ∨ first.kind = .letter ∨
      (first.kind = .number ∧ ∃ letter after, rest = letter :: after ∧ letter.kind = .letter)

def KeywordsOpen (tokens : List Token) : Prop :=
  ∀ keyword rest, keyword :: rest <:+ tokens → keyword.kind.IsCall → OpensArgument rest

variable {frames : List (Frame ν)} {waiting : List (Waiting (Label ν))} {slot : Slot ν}
  {tokens rest : List Token}
  {token : Token} {r : Tree (Label ν)}

namespace KeywordsOpen

theorem cons (here : token.kind.IsCall → OpensArgument rest) (later : KeywordsOpen rest) :
    KeywordsOpen (token :: rest) := by
  intro keyword after suffix call
  rcases List.suffix_cons_iff.mp suffix with same | suffix
  · obtain ⟨rfl, rfl⟩ := List.cons.inj same
    exact here call
  · exact later keyword after suffix call

theorem behind {kind : Token.Kind} (later : KeywordsOpen rest) (known : token.kind = kind)
    (other : ¬ kind.IsCall) :
    KeywordsOpen (token :: rest) :=
  later.cons fun call => absurd (known ▸ call) other

end KeywordsOpen

namespace Run

/-- A run that stands behind a keyword goes on with its argument. -/
theorem argument {keyword : Token} (run : Run frames waiting (.gap (some keyword) none) tokens r) :
    OpensArgument tokens := by
  cases run with
  | opening kind => exact .inl kind
  | coefficient kind isLetter => exact .inr (.inr ⟨kind, _, _, rfl, isLetter⟩)
  | letter kind | power kind | raised kind => exact .inr (.inl kind)

/-- In a run that ends with a tree every keyword finds its argument. -/
theorem keywordsOpen (run : Run frames waiting slot tokens r) : KeywordsOpen tokens := by
  induction run with
  | finish kind =>
    have nothing : KeywordsOpen [] := fun keyword rest suffix => by simp at suffix
    exact nothing.behind kind (by decide)
  | call _ run later => exact later.cons fun _ => run.argument
  | @operator token _ _ _ _ _ rank _ _ later =>
    apply later.behind rfl
    intro call
    rcases call with h | h | h | h <;> simp [h, Token.Kind.rank?] at rank
  | sign kind _ _ later =>
    rcases kind with kind | kind
    · exact later.behind kind (by decide)
    · exact later.behind kind (by decide)
  | number kind _ later | factorial kind _ later | factor kind _ _ later
  | opening kind _ later | closing kind _ later
  | coefficient kind _ _ later | letter kind _ _ later => exact later.behind kind (by decide)
  | negative minus alone _ later => exact (later.behind alone.digits (by decide)).behind minus (by decide)
  | power kind caret digits _ later =>
    exact ((later.behind digits (by decide)).behind caret (by decide)).behind kind (by decide)
  | raised kind caret opens _ later =>
    exact ((later.behind opens (by decide)).behind caret (by decide)).behind kind (by decide)

end Run

namespace Expression

/-- A text is an error when one of its keywords is followed by neither a written bracket nor a
variable term. -/
theorem ofText_keyword_alone {text : String}
    (alone : ∀ tokens, Token.scan text = .ok tokens →
      ∃ keyword rest, keyword :: rest <:+ tokens ∧ keyword.kind.IsCall ∧ ¬ OpensArgument rest) :
    ∃ error, (ofText text : Except GrammarError (Expression ν)) = .error error := by
  cases parsed : (ofText text : Except GrammarError (Expression ν)) with
  | error error => exact ⟨error, rfl⟩
  | ok e =>
    obtain ⟨x, built, -⟩ := ofText_displays parsed
    cases scanned : Token.scan text with
    | error error =>
      rw [Tree.ofText, Token.ofText, scanned] at built
      cases built
    | ok tokens =>
      obtain ⟨keyword, rest, suffix, call, unopened⟩ := alone tokens scanned
      have opened := (run_of_text scanned built).keywordsOpen keyword rest suffix call
      exact absurd opened unopened

/-- In `2*sin 30` the keyword has a number behind it. -/
theorem ofText_keyword_number :
    (∀ tokens, Token.scan "2*sin 30" = .ok tokens →
      ∃ keyword rest, keyword :: rest <:+ tokens ∧ keyword.kind.IsCall ∧ ¬ OpensArgument rest) ∧
    ∃ error, (ofText "2*sin 30" : Except GrammarError Outline) = .error error := by
  have scanned : Token.scan "2*sin 30" = .ok
      [⟨.number, "2", some 0⟩, .symbol .times 1, ⟨.trig, "sin", some 2⟩, ⟨.number, "30", some 6⟩,
      ⟨.finish, "", some 8⟩] := by
    cbv
  have alone (tokens : List Token) (read : Token.scan "2*sin 30" = .ok tokens) :
      ∃ keyword rest, keyword :: rest <:+ tokens ∧ keyword.kind.IsCall ∧ ¬ OpensArgument rest := by
    rw [scanned] at read
    obtain rfl := Except.ok.inj read
    refine ⟨⟨.trig, "sin", some 2⟩, [⟨.number, "30", some 6⟩, ⟨.finish, "", some 8⟩], ⟨[_, _], rfl⟩,
      .inl rfl, ?_⟩
    simp [OpensArgument]
  exact ⟨alone, ofText_keyword_alone alone⟩

end Expression

/-- The tree of `sin x`. -/
def Tree.sineOfLetter : Tree (Label Empty) :=
  (Tree.ofLetter (.inserted .number "1") ⟨.letter, "x", some 4⟩ (.inserted .power "^")
    (.leaf { token := .inserted .number "1" })).applyCall (some ⟨.trig, "sin", some 0⟩)

namespace Expression

/-- In `sin x` the keyword has no written bracket behind it, and the text denotes an expression all
the same. -/
theorem ofText_keyword_letter : ∃ (tokens rest : List Token) (keyword : Token) (e : Outline),
    Token.scan "sin x" = .ok tokens ∧ keyword :: rest <:+ tokens ∧ keyword.kind.IsCall ∧
      (∀ next ∈ rest.head?, next.kind ≠ .opening) ∧ ofText "sin x" = .ok e ∧ e.render = "sin(x^1)" := by
  have scanned : Token.scan "sin x" =
      .ok [⟨.trig, "sin", some 0⟩, ⟨.letter, "x", some 4⟩, ⟨.finish, "", some 5⟩] := by
    cbv
  have built : Tree.ofText "sin x" = .ok Tree.sineOfLetter := by cbv
  obtain ⟨e, parsed, displays⟩ := ofText_of_tree built
  refine ⟨_, _, _, e, scanned, List.suffix_refl _, .inl rfl, ?_, parsed, ?_⟩
  · simp
  · rw [render_eq displays]
    cbv

end Expression

end Stepwise
