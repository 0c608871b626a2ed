import Stepwise.Proofs.Reduction.Apart

/-! Texts that are written alike. Main statement: they are evaluated to the same value or error,
when no keyword stands on a factorial and the same is hidden in both. Outside the arguments of calls
it does not matter whether a sign stands in front of a number or on it. -/
namespace Stepwise.Formula

/-- The trees are written alike, without a chain of equations and without a keyword right on a factorial. -/
def WrittenAlike (x y : Tree Mark) : Prop :=
  x.text = y.text ∧ x.Unchained ∧ y.Unchained ∧ x.BareFactorials ∧ y.BareFactorials

instance (x y : Tree Mark) : Decidable (WrittenAlike x y) :=
  inferInstanceAs
    (Decidable (x.text = y.text ∧ x.Unchained ∧ y.Unchained ∧ x.BareFactorials ∧ y.BareFactorials))

theorem exists_parsed (text text' : String) (holds : Tree Mark → Tree Mark → Prop)
    [∀ x y, Decidable (holds x y)]
    (checked : (Tree.ofText text : Except GrammarError (Tree Mark)).toOption.any fun x =>
      (Tree.ofText text' : Except GrammarError (Tree Mark)).toOption.any fun y =>
      decide (holds x y)) :
    ∃ (e f : Formula) (x y : Tree Mark), Expression.ofText text = .ok e ∧ Expression.ofText text' = .ok f ∧
      e.Displays x ∧ f.Displays y ∧ holds x y := by
  cases built : (Tree.ofText text : Except GrammarError (Tree Mark)) with
  | error error => simp [built, Except.toOption] at checked
  | ok x =>
    cases built' : (Tree.ofText text' : Except GrammarError (Tree Mark)) with
    | error error => simp [built, built', Except.toOption] at checked
    | ok y =>
      obtain ⟨e, parsed, displays⟩ := Expression.ofText_of_tree built
      obtain ⟨f, parsed', displays'⟩ := Expression.ofText_of_tree built'
      exact ⟨e, f, x, y, parsed, parsed', displays, displays',
        by simpa [built, built', Except.toOption] using checked⟩

def Conflated (text text' : String) : Prop :=
  ∃ (e f : Formula) (x y : Tree Mark), Expression.ofText text = .ok e ∧ Expression.ofText text' = .ok f ∧
    e.Displays x ∧ f.Displays y ∧ e.render = f.render ∧ x.Unchained ∧ y.Unchained ∧
    x.BareFactorials ∧ y.BareFactorials ∧
    (evaluate e).value ≠ (evaluate f).value

def complaint (text : String) : Option String :=
  (Expression.ofText text : Except GrammarError Formula).toOption.bind fun e =>
    match (evaluate e).value with
    | .ok _ => none
    | .error failure => some failure.message

theorem conflated_of_checked {text text' : String}
    (checked : (Tree.ofText text : Except GrammarError (Tree Mark)).toOption.any fun x =>
      (Tree.ofText text' : Except GrammarError (Tree Mark)).toOption.any fun y => decide (WrittenAlike x y))
    (different : complaint text ≠ complaint text') : Conflated text text' := by
  obtain ⟨e, f, x, y, parsed, parsed', displays, displays', texts, unchained, unchained', bare, bare'⟩ :=
    exists_parsed text text' WrittenAlike checked
  have same : e.render = f.render := by
    rw [Expression.render_eq displays, Expression.render_eq displays', texts]
  refine ⟨e, f, x, y, parsed, parsed', displays, displays', same, unchained, unchained', bare,
    bare', fun value => ?_⟩
  simp only [complaint, parsed, parsed', Except.toOption, Option.bind_some, value, ne_eq,
    not_true_eq_false] at different

end Stepwise.Formula
