import Stepwise.Proofs.Reduction.Compact
import Stepwise.Proofs.Reduction.Equation
import Stepwise.Proofs.Reduction.Shown
import Stepwise.Proofs.Reduction.Snapshot
import Stepwise.Proofs.Text.Trim

/-! The number of a solved equation. Main statement: an evaluation that ends in `v = q`, where `q`
has no letter, has a number just when `q` is no term and no keyword stands around the equation. A
term on the right is taken for a number when the letter is isolated, but only a term at the root is
ever replaced by its number. -/
namespace Stepwise

open Text (IsSober)

/-! ### Lines that show no number -/

namespace Text

theorem mem_trim {c : Char} {text : String} (member : c ∈ text.toList) (shown : isBlank c = false) :
    c ∈ (trim text).toList := by
  rw [trim, String.toList_ofList]
  exact (mem_trimList_or_blank member).resolve_right (Bool.eq_false_iff.mp shown)

/-- A text with the mark in it is cut. -/
theorem cutFrom_of_infix {mark before text : List Char} (inside : mark <:+: text) :
    (cutFrom? mark before text).isSome := by
  fun_induction cutFrom? mark before text with
  | case1 before empty => rfl
  | case2 before other =>
    exact absurd (List.isEmpty_iff.mpr (List.eq_nil_of_infix_nil inside)) other
  | case3 before c more found => rfl
  | case4 before c more other ih =>
    refine ih ((List.infix_cons_iff.mp inside).resolve_left fun ahead => other ?_)
    exact List.isPrefixOf_iff_prefix.mpr ahead

end Text

namespace Formula

theorem valueOfLine_unsolved {line : String} (unsolved : solvedSide? line = none) :
    valueOfLine line = .error (.nonNumericResult line) := by
  unfold valueOfLine
  simp only [unsolved]

/-- A call on the right shows no number. -/
theorem valueOfLine_call {line side : String} (solved : solvedSide? line = some side)
    (bracket : '(' ∈ side.toList) (whole : '/' ∉ side.toList) :
    valueOfLine line = .error (.nonNumericResult line) := by
  have uncut : Text.cut? "/" side = none := Text.cut_none (show "/".toList = ['/'] by decide) whole
  have unread : Decimal.read? (Text.trim side) = none := by
    cases read : Decimal.read? (Text.trim side) with
    | none => rfl
    | some x => exact absurd (Decimal.figure_of_read read _ (Text.mem_trim bracket (by decide))) (by decide)
  unfold valueOfLine
  simp only [solved, uncut, unread]

/-- An equation inside a bracket is none that the line is. -/
theorem solvedSide_of_bracket {head argument behind : String} (nonempty : head ≠ "")
    (tight : ' ' ∉ head.toList) (inside : " = ".toList <:+: argument.toList) :
    solvedSide? (head ++ "(" ++ argument ++ behind) = none := by
  have text : (head ++ "(" ++ argument ++ behind).toList =
      head.toList ++ '(' :: (argument.toList ++ behind.toList) := by
    simp
  cases cut : Text.cut? " = " (head ++ "(" ++ argument ++ behind) with
  | none =>
    have within : " = ".toList <:+: (head ++ "(" ++ argument ++ behind).toList :=
      inside.trans ⟨head.toList ++ ['('], behind.toList, by rw [text]; simp⟩
    have found := @Text.cutFrom_of_infix _ [] _ within
    rw [Text.cut?, Option.map_eq_none_iff] at cut
    rw [cut] at found
    cases found
  | some parts =>
    obtain ⟨left, side⟩ := parts
    have same := (Text.cut_eq cut).symm.trans text
    simp only [solvedSide?, cut]
    split
    · next c single =>
      -- behind one letter the sign begins with a blank, and behind the first character of the text is none
      rw [single] at same
      cases chars : head.toList with
      | nil =>
        exact absurd
          (String.toList_inj.mp (chars.trans (by rfl : ([] : List Char) = "".toList))) nonempty
      | cons d rest =>
        rw [chars, show " = ".toList = [' ', '=', ' '] by decide] at same
        cases rest with
        | nil =>
          have second : ' ' = '(' := by simpa using (List.cons.inj (List.cons.inj same).2).1
          exact absurd second (by decide)
        | cons d' rest =>
          have second : ' ' = d' := by simpa using (List.cons.inj (List.cons.inj same).2).1
          exact absurd (chars ▸ .tail _ (second ▸ List.mem_cons_self ..)) tight
    · rfl

end Formula

/-! ### What a settled tree shows -/

namespace Quantity

variable {q : Quantity}

/-- Without a letter, a compact quantity is a term, a number or a fraction of two whole numbers. -/
theorem IsCompact.number (compact : q.IsCompact) (constant : q.isConstant)
    (other : Formula.isTerm q = false) :
    (∃ x, q = .constant x) ∨ ∃ x y, q = fraction (.constant x) (.constant y) ∧ IsRatio x y := by
  cases q with
  | constant x => exact .inl ⟨x, rfl⟩
  | polynomial p => exact absurd (by simpa [isConstant] using constant) compact.2
  | trig t | log t => cases other
  | fraction n d =>
    rw [isConstant, Bool.and_eq_true] at constant
    cases compact.2 constant.1 constant.2 with
    | ratio ratio => exact .inr ⟨_, _, rfl, ratio⟩

theorem derivative_of_constant (constant : q.isConstant) : (q.derivative?).isSome := by
  cases q with
  | polynomial p => rfl
  | _ => simp only [derivative?, constant, if_true, Option.isSome_some]

/-- A term of a number is written as a call. -/
theorem text_of_term (term : Formula.isTerm q) (constant : q.isConstant) :
    '(' ∈ q.text.toList ∧ '/' ∉ q.text.toList := by
  have written {coef power x : Float} {name : String} (known : name ∈ ["sin", "cos", "tan", "log", "diff"]) :
      '(' ∈ (callText coef name (Decimal.sixPlaces x) power).toList ∧
      '/' ∉ (callText coef name (Decimal.sixPlaces x) power).toList := by
    have named : '/' ∉ name.toList := by
      simp only [List.mem_cons, List.not_mem_nil, or_false] at known
      rcases known with rfl | rfl | rfl | rfl | rfl <;> decide
    have factor := (Formula.clear_sixPlaces coef).2.1
    have argument := (Formula.clear_sixPlaces x).2.1
    have exponent := (Formula.clear_sixPlaces power).2.1
    unfold callText
    refine ⟨by simp, ?_⟩
    simp only [String.toList_append, List.mem_append, not_or]
    refine ⟨⟨⟨⟨⟨?_, named⟩, by decide⟩, argument⟩, by decide⟩, ?_⟩
    · repeat' split
      · decide
      · decide
      · simpa using factor
    · split
      · decide
      · simpa using exponent
  cases q with
  | trig t =>
    obtain ⟨function, argument, coef, power⟩ := t
    cases argument with
    | numeric x => exact written function.name_known
    | symbolic outline => cases constant
  | log t =>
    obtain ⟨base, argument, coef, power⟩ := t
    cases argument with
    | numeric x => exact written (by simp)
    | symbolic outline => cases constant
  | _ => cases term

end Quantity

namespace Polynomial

structure IsLetter (p : Polynomial) : Prop where
  degree : p.degree = 1
  offset : p.coefficient 0 == 0.0
  slope : p.coefficient 1 == 1.0

theorem IsLetter.text {p : Polynomial} (letter : p.IsLetter) : p.text = p.letter.toString := by
  have size : p.coefficients.size = 2 := by
    have degree := letter.degree
    unfold Polynomial.degree at degree
    omega
  have slope := Decimal.isRational_of_beq .one letter.slope
  refine text_of_slope size letter.offset ?_ ?_ ((slope.abs.beq_iff .one).mpr abs_one)
  · exact Bool.eq_false_iff.mpr fun zero => one_ne_zero ((slope.beq_iff .zero).mp zero)
  · exact fun negative => absurd ((slope.lt .zero).mp negative) (by norm_num)

end Polynomial

namespace Tree

variable {x left right : Tree Mark} {a : Mark} {q : Quantity}

/-- A settled leaf shows what it holds, unless that is a term around an expression. -/
theorem text_of_leaf (compact : (leaf a).Compact Label.IsPutOff) (sound : (leaf a).Sound)
    (prepared : (leaf a).Prepared) (idle : (leaf a).Idle) (value : a.value = some q)
    (derives : (q.derivative?).isSome) (shown : Formula.isTerm q = false ∨ q.isConstant) :
    (leaf a).text = q.text := by
  cases call : a.call with
  | none =>
    simp only [text, rendered, leafRendered, call, value]
    rfl
  | some keyword =>
    have term (kind : keyword.kind = .trig ∨ keyword.kind = .log) : Formula.isTerm q ∧ q.isConstant := by
      obtain ⟨b, r, before, same⟩ := sound.2 keyword.text (by simp [Label.termKeyword?, call, kind])
      have held : some ((leaf (b.collapse r)).callTerm keyword.text before) = some q := by rw [← value, same]
      have term : Formula.isTerm q := Option.some.inj held ▸ isTerm_callTerm _ keyword.text before
      exact ⟨term, shown.resolve_left (by simp [term])⟩
    have numeric (kind : keyword.kind = .trig ∨ keyword.kind = .log) : Content.hasNumericArgument q := by
      obtain ⟨term, constant⟩ := term kind
      cases q with
      | trig t | log t => exact constant
      | _ => cases term
    rcases compact.1.marked keyword call with ⟨kind | kind | kind, -⟩
    · simp only [text, rendered, leafRendered, call, callRendered, value, kind, numeric (.inl kind), if_true]
      rfl
    · simp only [text, rendered, leafRendered, call, callRendered, value, kind, numeric (.inr kind), if_true]
      rfl
    · -- a derivative that is not taken is put off, and then there is none
      have derivative : a.isDerivative := by simp [Label.isDerivative, call, kind]
      have settled : a.isSettled := by
        have still := idle_leaf.mp idle
        simpa [isPending, derivative] using still
      have put : a.deferred := by simpa [Label.isSettled, prepared.2.2 derivative] using settled
      have underived := compact.2 put
      rw [value, Option.bind_some] at underived
      simp [underived] at derives

/-- A keyword around an inner node is written with its bracket. -/
theorem text_of_call {keyword : Token} (holds : a.HoldsTerm) (call : a.call = some keyword)
    (argument : String) :
    ∃ head behind : String, head ≠ "" ∧ ' ' ∉ head.toList ∧
      (callRendered a keyword false argument).text = head ++ "(" ++ argument ++ behind := by
  have named {name : String} (known : name ∈ ["sin", "cos", "tan", "log", "diff"]) :
      name ≠ "" ∧ ' ' ∉ name.toList := by
    simp only [List.mem_cons, List.not_mem_nil, or_false] at known
    rcases known with rfl | rfl | rfl | rfl | rfl <;> exact ⟨by decide, by decide⟩
  have around {coef power : Float} {name : String} (known : name ∈ ["sin", "cos", "tan", "log", "diff"]) :
      ∃ head behind : String, head ≠ "" ∧ ' ' ∉ head.toList ∧
        callText coef name argument power = head ++ "(" ++ argument ++ behind := by
    obtain ⟨nonempty, tight⟩ := named known
    have factor : ' ' ∉ (Decimal.sixPlaces coef).toList := fun member =>
      absurd ((Formula.clear_sixPlaces coef).1 ' ' member) (by decide)
    refine ⟨(if coef == 1.0 then "" else if coef == -1.0 then "-" else Decimal.sixPlaces coef ++ "*") ++ name,
      ")" ++ (if power == 1.0 then "" else "^" ++ Decimal.sixPlaces power), fun empty => nonempty ?_, ?_, ?_⟩
    · have nil := congrArg String.toList empty
      rw [String.toList_append] at nil
      exact String.toList_inj.mp (List.append_eq_nil_iff.mp nil).2
    · rw [String.toList_append, List.mem_append, not_or]
      refine ⟨?_, tight⟩
      repeat' split
      · decide
      · decide
      · simpa using factor
    · unfold callText
      simp only [String.append_assoc]
  obtain ⟨mark, spelled⟩ := holds.marked keyword call
  obtain ⟨nonempty, tight⟩ := named (mark.name spelled)
  have plain : ∃ head behind : String, head ≠ "" ∧ ' ' ∉ head.toList ∧
      keyword.text ++ "(" ++ argument ++ ")" = head ++ "(" ++ argument ++ behind :=
      ⟨_, _, nonempty, tight, rfl⟩
  cases value : a.value with
  | none =>
    rcases mark with kind | kind | kind <;> simpa only [callRendered, value, kind] using plain
  | some q =>
    obtain ⟨term, symbolicArgument⟩ := holds.term q value
    have symbolic : Content.hasNumericArgument q = false := by
      cases q with
      | trig t | log t => exact symbolicArgument
      | _ => cases term
    have shown : ∃ head behind : String, head ≠ "" ∧ ' ' ∉ head.toList ∧
        (Content.around q argument).text = head ++ "(" ++ argument ++ behind := by
      cases q with
      | trig t => exact around t.function.name_known
      | log t => exact around (by simp)
      | _ => cases term
    rcases mark with kind | kind | kind
    · simpa only [callRendered, value, kind, symbolic, Bool.false_eq_true, if_false] using shown
    · simpa only [callRendered, value, kind, symbolic, Bool.false_eq_true, if_false] using shown
    · simpa only [callRendered, value, kind, Bool.false_eq_true, if_false] using plain

theorem text_of_equation (kind : a.token.kind = .equals) (unary : a.unary = false) :
    (operatorRendered a left left.rendered right.rendered).text = left.text ++ " = " ++ right.text := by
  have sign : (Token.Kind.equals == .times) = false := rfl
  simp only [text, operatorRendered, unary, isUnit, kind, sign, Bool.false_and, Bool.false_eq_true, if_false]

theorem text_uncalled (call : a.call = none) :
    (fork a left right).text = (operatorRendered a left left.rendered right.rendered).text := by
  simp only [text, rendered, innerRendered, call]

theorem text_called {keyword : Token} (call : a.call = some keyword) : (fork a left right).text =
    (callRendered a keyword false (operatorRendered a left left.rendered right.rendered).text).text := by
  simp only [text, rendered, innerRendered, call]

end Tree

namespace Formula

open Expression

variable {e f : Formula}

/-- In the tree that is left when an evaluation ends well, nothing is pending. -/
theorem trace_idle {text : String} {x : Tree Mark} (parsed : Expression.ofText text = .ok e)
    (ended : (trace e).2 = .ok ()) (displays : (trace e).1.formula.Displays x) :
    x.Sound ∧ x.Idle := by
  cases prepared : prepare e with
  | mk f result =>
    cases result with
    | error error => simp [trace, prepared] at ended
    | ok done =>
      cases done
      obtain ⟨t, spans, root, sound⟩ := stands_of_parsed parsed prepared
      obtain ⟨last, settled⟩ := trace_passes prepared spans root sound
      obtain ⟨u, spans, root, sound, -⟩ := last.stands spans root sound
      rw [displays.unique ⟨u, spans, root, rfl⟩]
      exact ⟨sound, sound.idle ((isPending_view spans.links).trans (root ▸ settled ended))⟩

/-- The tree that is left when an evaluation ends well, and the number that it shows. -/
theorem settled_tree {text : String} {x : Tree Mark} (parsed : Expression.ofText text = .ok e)
    (ended : (trace e).2 = .ok ()) (displays : (evaluate e).formula.Displays x) :
    x.Compact Label.IsPutOff ∧ x.Prepared ∧
      (evaluate e).value = (valueOfLine x.text).mapError .computation := by
  obtain ⟨y, built, displayed, formed⟩ := displays_of_parsed parsed
  obtain ⟨left, -, value⟩ := evaluate_eq displayed formed
  have stop : y.trace.ended = .ok () := (trace_eq displayed formed).2.2.symm.trans ended
  have finished := Tree.trace_finished formed
  rw [stop] at finished
  rw [displays.unique left, value, Tree.Result.value, stop, Tree.trace_last stop]
  cases finished with
  | done prepared =>
    exact ⟨(Tree.ofText_grammatical built).trace_compact, prepared,
      by simp only [bind, Except.bind, Option.getD_some]⟩

/-- The right side of an equation that is solved for its letter, when there is no letter in it. -/
def solution? (e : Formula) : Option Quantity := do
  let root := e.node e.root
  if root.token.kind ≠ .equals then none
  let p ← linear? e (← root.left)
  let q ← (e.node (← root.right)).value
  if p.coefficient 0 == 0.0 && p.coefficient 1 == 1.0 && q.isConstant then some q else none

/-- The tree of a solved equation. -/
theorem solution_cases {x : Tree Mark} {q : Quantity} (displays : e.Displays x)
    (solved : e.solution? = some q) :
    ∃ left right p, x = .fork (e.node e.root).label left right ∧ (e.node e.root).token.kind = .equals ∧
      left.top.value = some (.polynomial p) ∧ p.IsLetter ∧ right.top.value = some q ∧ q.isConstant := by
  obtain ⟨t, spans, root, rfl⟩ := displays
  simp only [solution?, ← root] at solved ⊢
  split at solved
  · cases solved
  · next kind =>
    obtain ⟨l, first, solved⟩ := Option.bind_eq_some_iff.mp solved
    obtain ⟨p, linear, solved⟩ := Option.bind_eq_some_iff.mp solved
    obtain ⟨r, second, solved⟩ := Option.bind_eq_some_iff.mp solved
    obtain ⟨v, value, solved⟩ := Option.bind_eq_some_iff.mp solved
    split at solved
    · next bare =>
      obtain rfl := Option.some.inj solved
      simp only [Bool.and_eq_true] at bare
      cases t with
      | leaf id => simp [spans.links.1] at first
      | group id inner => simp [spans.links.2.1] at second
      | fork id left right =>
        have side (u : Tree NodeId) : (e.view u).top.value = (e.node u.top).value := by
          simp [Expression.view, Node.label]
        obtain rfl := Option.some.inj (spans.links.1.symm.trans first)
        obtain rfl := Option.some.inj (spans.links.2.1.symm.trans second)
        unfold linear? at linear
        split at linear
        · next polynomial held =>
          split at linear
          · next degree =>
            obtain rfl := Option.some.inj linear
            exact ⟨_, _, polynomial, view_fork .., by simpa using kind, (side left).trans held,
              ⟨degree, bare.1.1, bare.1.2⟩, (side right).trans value, bare.2⟩
          · cases linear
        · cases linear
    · cases solved

/-- What an evaluation shows that ends in `v = q` without a letter in `q`. The value is a number
unless `q` is a term of a number, as in `x = sin(30)`, or a keyword stands around the equation. -/
theorem evaluate_answer {text : String} {q : Quantity} (parsed : Expression.ofText text = .ok e)
    (ended : (trace e).2 = .ok ()) (solved : (evaluate e).formula.solution? = some q) :
    let call := ((evaluate e).formula.node (evaluate e).formula.root).call
    (call = none ∧ isTerm q = false → ∃ x, (evaluate e).value = .ok x) ∧
      (call ≠ none ∨ isTerm q →
        (evaluate e).value = .error (.computation (.nonNumericResult (evaluate e).formula.render))) := by
  intro call
  obtain ⟨x, -, displayed, formed⟩ := displays_of_parsed parsed
  have displays := (evaluate_eq displayed formed).1
  obtain ⟨left, right, p, same, kind, value, letter, value', constant⟩ := solution_cases displays solved
  rw [same] at displays
  obtain ⟨compact, prepared, answer⟩ := settled_tree parsed ended displays
  obtain ⟨sound, idle⟩ := trace_idle parsed ended displays
  obtain ⟨idlel, idler, -⟩ := Tree.idle_fork.mp idle
  obtain ⟨-, -, soundl, soundr⟩ := sound
  obtain ⟨-, -, -, preparedl, preparedr⟩ := prepared
  obtain ⟨holds, l, r⟩ := compact
  have named : p.IsNamed := (l.value _ value).1
  obtain ⟨b, rfl⟩ := l.leaf_of_other value (.inl rfl)
  obtain ⟨c, rfl⟩ := r.leaf_of_other value' (.inr constant)
  have first : (Tree.leaf b).text = p.letter.toString :=
    (Tree.text_of_leaf l soundl preparedl idlel value rfl (.inl rfl)).trans letter.text
  have second : (Tree.leaf c).text = q.text :=
    Tree.text_of_leaf r soundr preparedr idler value' (Quantity.derivative_of_constant constant)
      (.inr constant)
  generalize root : ((evaluate e).formula.node (evaluate e).formula.root).label = a at *
  have marked : call = a.call := root ▸ rfl
  have equation : a.token.kind = .equals := root ▸ kind
  have unary : a.unary = false := Bool.eq_false_iff.mpr fun sign => holds.unary sign equation
  have shown (bare : a.call = none) : solvedSide? (Tree.fork a (.leaf b) (.leaf c)).text = some q.text := by
    rw [Tree.text_uncalled bare, Tree.text_of_equation equation unary, first, second]
    exact solvedSide_at named.low named.high q.text
  rw [answer, render_eq displays, marked]
  refine ⟨fun ⟨bare, other⟩ => ?_, fun other => ?_⟩
  · obtain ⟨x, read, -⟩ := value_of_number ((r.value q value').number constant other) (shown bare)
    exact ⟨x, by rw [read]; rfl⟩
  · cases bare : a.call with
    | none =>
      obtain ⟨bracket, whole⟩ := Quantity.text_of_term (other.resolve_left (by simp [bare])) constant
      rw [valueOfLine_call (shown bare) bracket whole]
      rfl
    | some keyword =>
      have inside : " = ".toList <:+:
          (Tree.operatorRendered a (.leaf b) (Tree.leaf b).rendered (Tree.leaf c).rendered).text.toList := by
        rw [Tree.text_of_equation equation unary]
        exact ⟨(Tree.leaf b).text.toList, (Tree.leaf c).text.toList, by simp⟩
      obtain ⟨head, behind, nonempty, tight, written⟩ := Tree.text_of_call holds bare
        (Tree.operatorRendered a (.leaf b) (Tree.leaf b).rendered (Tree.leaf c).rendered).text
      have unsolved : solvedSide? (Tree.fork a (.leaf b) (.leaf c)).text = none := by
        rw [Tree.text_called bare, written]
        exact solvedSide_of_bracket nonempty tight inside
      rw [valueOfLine_unsolved unsolved]
      rfl

/-- A fraction is read back. -/
theorem evaluate_answer_fraction : ∃ e : Formula, Expression.ofText "2*x=3" = .ok e ∧ (trace e).2 = .ok () ∧
    (evaluate e).formula.solution?.isSome ∧ ∃ x, (evaluate e).value = .ok x := by
  have tested : (Expression.ofText "2*x=3" : Except GrammarError Formula).toOption.any fun e =>
      (trace e).2.isOk && (((evaluate e).formula.node (evaluate e).formula.root).call.isNone &&
        (evaluate e).formula.solution?.any fun q => !isTerm q) := by decide +kernel
  cases parsed : (Expression.ofText "2*x=3" : Except GrammarError Formula) with
  | error error => simp [parsed, Except.toOption] at tested
  | ok e =>
    simp only [parsed, Except.toOption, Option.any_some, Bool.and_eq_true,
      Option.isNone_iff_eq_none] at tested
    obtain ⟨ends, bare, other⟩ := tested
    cases ended : (trace e).2 with
    | error error => simp [ended, Except.isOk, Except.toBool] at ends
    | ok done =>
      obtain ⟨q, solved, plain⟩ := (Option.any_eq_true ..).mp other
      exact ⟨e, rfl, ended, by simp [solved],
        (evaluate_answer parsed ended solved).1 ⟨bare, by simpa using plain⟩⟩

/-- A term of a number is no answer. -/
theorem evaluate_unanswered :
    ∃ (e : Formula) (q : Quantity), Expression.ofText "x=sin(30)" = .ok e ∧ (trace e).2 = .ok () ∧
    ((evaluate e).formula.node (evaluate e).formula.root).reduced ∧ (evaluate e).formula.solution? = some q ∧
    ∀ x, (evaluate e).value ≠ .ok x := by
  have tested : (Expression.ofText "x=sin(30)" : Except GrammarError Formula).toOption.any fun e =>
      ((trace e).2.isOk && ((evaluate e).formula.node (evaluate e).formula.root).reduced) &&
        ((evaluate e).formula.solution?.isSome && (evaluate e).value.toOption.isNone) := by decide +kernel
  cases parsed : (Expression.ofText "x=sin(30)" : Except GrammarError Formula) with
  | error error => simp [parsed, Except.toOption] at tested
  | ok e =>
    simp only [parsed, Except.toOption, Option.any_some, Bool.and_eq_true] at tested
    obtain ⟨⟨ends, reduced⟩, solved, unread⟩ := tested
    obtain ⟨q, solved⟩ := Option.isSome_iff_exists.mp solved
    cases ended : (trace e).2 with
    | error error => simp [ended, Except.isOk, Except.toBool] at ends
    | ok done => exact ⟨e, q, rfl, ended, reduced, solved, fun x value => by simp [value] at unread⟩

end Formula

end Stepwise
