import Stepwise.Proofs.Phrase.Writing
import Stepwise.Proofs.Tree.Building

/-! Reading the text of an expression back. Main statement: the text denotes an expression with the
same text and the same core. A letter whose exponent is written without brackets loses it: in
`x^y^1` the letter `x` has the exponent one, whether the text was `x^(y)` or `x^y`. -/
namespace Stepwise

variable {ν : Type} [Content ν]

/-- The brackets of a text, those of its implicit products included, are not nested too deep. -/
def Token.Shallow (text : String) : Prop :=
  ∀ tokens, Token.ofText text = .ok tokens → Token.nesting 0 tokens ≤ Expression.maxNesting

omit [Content ν] in
theorem Token.shallow_of_nesting {text : String} {depth : Nat}
    (nested : (Token.ofText text).map (Token.nesting 0) = .ok depth)
    (shallow : depth ≤ Expression.maxNesting) : Token.Shallow text := by
  intro tokens read
  rw [read] at nested
  exact Except.ok.inj nested ▸ shallow

theorem Tree.Grammatical.ofText_text {x : Tree (Label ν)} (grammatical : x.Grammatical)
    (bare : x.BareFactorials) (unchained : x.Unchained) (keeps : x.KeepsExponents)
    (shallow : Token.Shallow x.text) :
    ∃ y : Tree (Label ν), Tree.ofText x.text = .ok y ∧ y.text = x.text ∧ y.core = x.core := by
  obtain ⟨p, writes⟩ := grammatical.writes bare unchained keeps
  refine ⟨p.tree 0, Phrase.ofText_chars writes.valid writes.chars shallow, ?_, writes.core 0⟩
  rw [Tree.text, writes.rendered, Tree.text]

namespace Expression

/-- The text of an expression denotes an expression with the same text and the same core. -/
theorem ofText_render {text : String} {e : Expression ν} {x : Tree (Label ν)} (parsed : ofText text = .ok e)
    (displays : e.Displays x) (bare : x.BareFactorials) (unchained : x.Unchained) (keeps : x.KeepsExponents)
    (shallow : Token.Shallow e.render) :
    ∃ (f : Expression ν) (y : Tree (Label ν)), ofText e.render = .ok f ∧ f.Displays y ∧ f.render = e.render ∧
      y.core = x.core := by
  obtain ⟨z, built, displays'⟩ := ofText_displays parsed
  obtain rfl := displays.unique displays'
  rw [render_eq displays] at shallow ⊢
  obtain ⟨y, read, same, core⟩ := (Tree.ofText_grammatical built).ofText_text bare unchained keeps shallow
  obtain ⟨f, parsed', again⟩ := ofText_of_tree read
  exact ⟨f, y, parsed', again, by rw [render_eq again, same], core⟩

end Expression

namespace Tree

/-- The tree of `x^(y-1)=2-1sin(cos(x))`. -/
def hiddenCall : Tree (Label Empty) :=
  fork { token := .symbol .equals 7 }
    (ofLetter (.inserted .number "1") ⟨.letter, "x", some 0⟩ (.symbol .power 1)
      (fork { token := .symbol .minus 4 }
        (ofLetter (.inserted .number "1") ⟨.letter, "y", some 3⟩ (.inserted .power "^")
        (leaf { token := .inserted .number "1" }))
        (leaf { token := ⟨.number, "1", some 5⟩ })))
    (fork { token := .symbol .minus 9 } (leaf { token := ⟨.number, "2", some 8⟩ })
      (fork { token := .inserted .times "*" } (leaf { token := ⟨.number, "1", some 10⟩ })
        (group { token := .inserted .opening "(", call := some ⟨.trig, "sin", some 11⟩ }
          (fork { token := .inserted .times "*", call := some ⟨.trig, "cos", some 15⟩ }
          (leaf { token := .inserted .number "1" })
            (fork { token := .inserted .power "^" } (leaf { token := ⟨.letter, "x", some 19⟩ })
              (leaf { token := .inserted .number "1" }))))))

/-- The tree of `x^(y)`. -/
def raisedLetter : Tree (Label Empty) :=
  ofLetter (.inserted .number "1") ⟨.letter, "x", some 0⟩ (.symbol .power 1)
    (ofLetter (.inserted .number "1") ⟨.letter, "y", some 3⟩ (.inserted .power "^")
    (leaf { token := .inserted .number "1" }))

/-- The tree of `x^y^1`. -/
def raisedPower : Tree (Label Empty) :=
  fork { token := .symbol .power 1 }
    (ofLetter (.inserted .number "1") ⟨.letter, "x", some 0⟩ (.inserted .power "^")
    (leaf { token := .inserted .number "1" }))
    (ofLetter (.inserted .number "1") ⟨.letter, "y", some 2⟩ (.symbol .power 3)
    (leaf { token := ⟨.number, "1", some 4⟩ }))

end Tree

namespace Expression

theorem ofText_render_hidden : ∃ (e f : Outline) (x y : Tree (Label Empty)),
    ofText "x^(y-1)=2-1sin(cos(x))" = .ok e ∧ e.Displays x ∧ x.BareFactorials ∧ x.Unchained ∧
      x.KeepsExponents ∧
      e.render = "x^(y^1-1) = 2-sin(cos(x^1))" ∧ Token.Shallow e.render ∧
      ofText e.render = .ok f ∧ f.Displays y ∧ f.render = e.render ∧ y.core = x.core := by
  have built : Tree.ofText "x^(y-1)=2-1sin(cos(x))" = .ok Tree.hiddenCall := by cbv
  obtain ⟨e, parsed, displays⟩ := ofText_of_tree built
  have written : e.render = "x^(y^1-1) = 2-sin(cos(x^1))" := by
    rw [render_eq displays]
    cbv
  have shallow : Token.Shallow e.render := by
    rw [written]
    exact Token.shallow_of_nesting (show _ = Except.ok 3 by cbv) (by decide)
  have bare : Tree.hiddenCall.BareFactorials := by
    unfold Tree.BareFactorials
    decide
  have unchained : Tree.hiddenCall.Unchained := by
    simp [Tree.Unchained, Tree.hiddenCall, Tree.ofLetter, Tree.EveryFork, Token.symbol, Token.inserted]
  have keeps : Tree.hiddenCall.KeepsExponents := by
    simp only [Tree.KeepsExponents, Tree.hiddenCall, Token.symbol, Char.toString_eq_singleton,
      Tree.ofLetter, Token.inserted, Tree.EveryFork, reduceCtorEq, Tree.top_fork,
      IsEmpty.forall_iff, Tree.top_leaf, forall_const, and_self, and_true, true_and, and_self_right]
    exact ⟨.inr (by decide), .inl ⟨rfl, rfl, rfl⟩⟩
  obtain ⟨f, y, read, displays', same, core⟩ := ofText_render parsed displays bare unchained keeps shallow
  exact ⟨e, f, _, y, parsed, displays, bare, unchained, keeps, written, shallow, read, displays', same, core⟩

/-- A letter in the exponent of a letter is written without brackets and read as the exponent of the power. -/
theorem ofText_render_raised : ∃ (e f : Outline) (x y : Tree (Label Empty)),
    ofText "x^(y)" = .ok e ∧ e.Displays x ∧ x.BareFactorials ∧ x.Unchained ∧ Token.Shallow e.render ∧
      ofText e.render = .ok f ∧ f.Displays y ∧ e.render = "x^y^1" ∧ f.render = "(x^1)^y^1" ∧
      y.core ≠ x.core := by
  have built : Tree.ofText "x^(y)" = .ok Tree.raisedLetter := by cbv
  have again : Tree.ofText "x^y^1" = .ok Tree.raisedPower := by cbv
  obtain ⟨e, parsed, displays⟩ := ofText_of_tree built
  obtain ⟨f, read, displays'⟩ := ofText_of_tree again
  have written : e.render = "x^y^1" := by
    rw [render_eq displays]
    cbv
  have written' : f.render = "(x^1)^y^1" := by
    rw [render_eq displays']
    cbv
  have shallow : Token.Shallow e.render := by
    rw [written]
    exact Token.shallow_of_nesting (show _ = Except.ok 1 by cbv) (by decide)
  have bare : Tree.raisedLetter.BareFactorials := by
    unfold Tree.BareFactorials
    decide
  have unchained : Tree.raisedLetter.Unchained := by
    simp [Tree.Unchained, Tree.raisedLetter, Tree.ofLetter, Tree.EveryFork, Token.symbol, Token.inserted]
  have apart : Tree.raisedPower.core ≠ Tree.raisedLetter.core := by
    rw [Tree.raisedPower, Tree.raisedLetter, Tree.core_fork (by decide), Phrase.core_ofLetter _ _ rfl]
    intro same
    cases same
  exact ⟨e, f, _, _, parsed, displays, bare, unchained, shallow, written ▸ read, displays', written,
    written', apart⟩

end Expression

end Stepwise
