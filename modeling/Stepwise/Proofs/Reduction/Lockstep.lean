import Stepwise.Proofs.Reduction.Idle
import Stepwise.Proofs.Reduction.Resembling

/-! Trees that resemble each other are reduced in step. Main statement: their runs end with trees
that resemble each other, or with the same error. -/
namespace Stepwise

open Expression (standard_faithful Alike)

def Quantity.linear? (q : Quantity) : Option Polynomial :=
  match q with
  | .polynomial p => if p.degree = 1 then some p else none
  | _ => none

namespace Tree

variable {x y left left' right right' : Tree Mark} {a b : Mark}

def callArgument (x : Tree Mark) : Argument :=
  match x.isLeaf, x.top.value.bind Quantity.value? with
  | true, some n => .numeric n
  | _, _ => .symbolic x.outline

def callFactors (before : Option Quantity) : Float × Float :=
  match before with
  | some q => if Formula.isTerm q then (q.coef, q.power) else (1.0, 1.0)
  | none => (1.0, 1.0)

theorem callTerm_eq (x : Tree Mark) (keyword : String) (before : Option Quantity) :
    x.callTerm keyword before = match TrigFunction.ofName? keyword with
      | some function =>
        .trig {
          function, argument := x.callArgument, coef := (callFactors before).1,
          power := (callFactors before).2 }
      | none =>
        .log {
          argument := x.callArgument, coef := (callFactors before).1,
          power := (callFactors before).2 } :=
          rfl

theorem callFactors_standard {before before' : Option Quantity}
    (same : before.map Quantity.standard = before'.map Quantity.standard) :
    callFactors before = callFactors before' := by
  cases before with
  | none => rw [Option.map_eq_none_iff.mp same.symm]
  | some p =>
    obtain ⟨q, rfl, alike⟩ := Option.map_eq_some_iff.mp same.symm
    simp only [callFactors, Quantity.of_standard (Quantity.isTerm_redraw _) alike,
      Quantity.of_standard (Quantity.coef_redraw _) alike,
      Quantity.of_standard (Quantity.power_redraw _) alike]

theorem Resembles.callArgument (resembles : x.Resembles y) :
    x.callArgument.redraw Expression.standard = y.callArgument.redraw Expression.standard := by
  rw [Tree.callArgument, Tree.callArgument, resembles.isLeaf,
    resembles.top.value_bind (Quantity.value_redraw _)]
  split
  · rfl
  · exact congrArg Argument.symbolic resembles.outline_standard

theorem Resembles.callTerm (resembles : x.Resembles y) (keyword : String) {before before' : Option Quantity}
    (same : before.map Quantity.standard = before'.map Quantity.standard) :
    (x.callTerm keyword before).standard = (y.callTerm keyword before').standard := by
  rw [callTerm_eq, callTerm_eq, callFactors_standard same]
  split
  · simp only [Quantity.standard, Quantity.redraw, TrigTerm.redraw, resembles.callArgument]
  · simp only [Quantity.standard, Quantity.redraw, LogTerm.redraw, resembles.callArgument]

theorem settled_resembles (label : a.Resembles b) {p q : Quantity} (same : p.standard = q.standard) :
    (settled a p).Resembles (settled b q) := by
  have collapsed := label.collapse same
  have keyword := label.termKeyword
  simp only [settled, keyword, label.isDerivative]
  cases b.termKeyword? with
  | some name =>
    refine .leaf ⟨collapsed.token, collapsed.call, ?_, collapsed.reduced, collapsed.deferred, collapsed.unary⟩
    exact congrArg some ((Resembles.leaf collapsed).callTerm name label.value)
  | none =>
    simp only
    split
    · exact .leaf ⟨collapsed.token, collapsed.call, collapsed.value, rfl, collapsed.deferred, collapsed.unary⟩
    · exact .leaf collapsed

theorem Resembles.mapTop (resembles : x.Resembles y) {f : Mark → Mark} (token : ∀ a, (f a).token = a.token)
    (label : ∀ a b : Mark, a.Resembles b → (f a).Resembles (f b)) :
    (x.mapTop f).Resembles (y.mapTop f) := by
  cases resembles with
  | leaf same => exact .leaf (label _ _ same)
  | group same opening below => exact .group (label _ _ same) (by rw [token, opening]) below
  | fork same product first second => exact .fork (label _ _ same) (by rwa [token, token]) first second

theorem Resembles.defer (resembles : x.Resembles y) : x.defer.Resembles y.defer :=
  resembles.mapTop (fun _ => rfl) fun _ _ same =>
    ⟨same.token, same.call, same.value, same.reduced, rfl, same.unary⟩

theorem Resembles.settleEquation (resembles : x.Resembles y) : x.settleEquation.Resembles y.settleEquation :=
  resembles.mapTop (fun _ => rfl) fun _ _ same =>
    ⟨same.token, same.call, same.value, rfl, rfl, same.unary⟩

theorem Resembles.differentiate (resembles : x.Resembles y) : x.differentiate.Resembles y.differentiate := by
  have top := resembles.top
  have derived : (x.top.value.bind Quantity.derivative?).map Quantity.standard =
      (y.top.value.bind Quantity.derivative?).map Quantity.standard := by
    rcases top.values with ⟨none, none'⟩ | ⟨p, q, some, some', same⟩
    · rw [none, none']
    · rw [some, some', Option.bind_some, Option.bind_some]
      have first := Quantity.derivative_redraw standard_faithful p
      have second := Quantity.derivative_redraw standard_faithful q
      have same : Quantity.redraw Expression.standard p = Quantity.redraw Expression.standard q := same
      rw [same] at first
      exact first.symm.trans second
  unfold Tree.differentiate
  cases here : x.top.value.bind Quantity.derivative? with
  | none =>
    rw [here] at derived
    rw [Option.map_eq_none_iff.mp derived.symm]
    exact resembles.defer
  | some p =>
    rw [here] at derived
    obtain ⟨q, there, same⟩ := Option.map_eq_some_iff.mp derived.symm
    rw [there]
    have bare : ({ x.top with call := none } : Mark).Resembles { y.top with call := none } :=
      ⟨top.token, rfl, top.value, top.reduced, top.deferred, top.unary⟩
    exact .leaf (bare.collapse same.symm)

/-- The operands of a node combine alike. -/
theorem combination_standard (label : a.Resembles b)
    {l l' r r' : Option Quantity} (left : l.map Quantity.standard = l'.map Quantity.standard)
    (right : r.map Quantity.standard = r'.map Quantity.standard) :
    Quantity.redrawOutcome Expression.standard (combination a l r) =
      Quantity.redrawOutcome Expression.standard (combination b l' r') := by
  have passed : Quantity.redrawOutcome Expression.standard
      (.ok (if a.token.kind = .opening then l else none)) = Quantity.redrawOutcome
      Expression.standard (.ok (if b.token.kind = .opening then l' else none)) := by
    rw [label.kind]
    split
    · exact congrArg Except.ok left
    · rfl
  unfold combination
  rw [label.kind] at passed ⊢
  cases Operation.ofKind? b.token.kind with
  | none => exact passed
  | some operation =>
    cases l with
    | none =>
      obtain rfl := Option.map_eq_none_iff.mp left.symm
      exact passed
    | some p =>
      obtain ⟨p', rfl, same⟩ := Option.map_eq_some_iff.mp left.symm
      cases r with
      | none =>
        obtain rfl := Option.map_eq_none_iff.mp right.symm
        exact passed
      | some q =>
        obtain ⟨q', rfl, same'⟩ := Option.map_eq_some_iff.mp right.symm
        have first := Quantity.apply_redraw standard_faithful operation p q
        have second := Quantity.apply_redraw standard_faithful operation p' q'
        have same : p'.redraw Expression.standard = p.redraw Expression.standard := same
        have same' : q'.redraw Expression.standard = q.redraw Expression.standard := same'
        rw [same, same'] at second
        exact first.symm.trans second

theorem linear_eq (x : Tree Mark) : x.linear? = x.top.value.bind Quantity.linear? := by
  unfold linear?
  rcases x.top.value with _ | _ | _ | _ | _ | _ <;> rfl

theorem Resembles.linear (resembles : x.Resembles y) : x.linear? = y.linear? := by
  rw [linear_eq, linear_eq]
  exact resembles.top.value_bind fun q => by cases q <;> rfl

theorem value_resembles (q : Quantity) : (value q).Resembles (value q) := .leaf (.refl _)

theorem moveOffset_resembles (label : a.Resembles b) (equation : a.token.kind = .equals)
    (second : right.Resembles right') (p : Polynomial) :
    (moveOffset a right p).Resembles (moveOffset b right' p) := by
  have sign : (offsetMove p).1.kind ≠ .times := by
    unfold offsetMove
    split <;> simp [Token.inserted]
  refine .fork label (by simp [equation]) (value_resembles _) ?_
  exact .fork (.refl _) (fun times => absurd times sign) second (value_resembles _)

theorem Resembles.isolate (resembles : x.Resembles y) (equation : x.top.token.kind = .equals) :
    x.isolate.Resembles y.isolate := by
  have settles := resembles.settleEquation
  cases resembles with
  | leaf label => exact settles
  | group label opening below => exact settles
  | @fork a b left left' right right' label product first second =>
    have equation : a.token.kind = .equals := equation
    have other (product : Prop) : a.token.kind = .times → product := by simp [equation]
    have constant : right.top.value.any Quantity.isConstant = right'.top.value.any Quantity.isConstant :=
      second.top.value_any (Quantity.isConstant_redraw _)
    simp only [Tree.isolate, constant, first.linear]
    split
    · refine .fork label (other _) ?_ (value_resembles _)
      exact .fork (.refl _) (by simp [Token.inserted]) first second
    · split
      · next p _ =>
        split
        · exact moveOffset_resembles label equation second p
        · split
          · refine .fork label (other _) (value_resembles _) ?_
            exact .fork (.refl _) (by simp [Token.inserted]) second (value_resembles _)
          · exact settles
      · exact settles

theorem Resembles.operands (resembles : x.Resembles y) :
    x.operands.1.map Quantity.standard = y.operands.1.map Quantity.standard ∧
      x.operands.2.map Quantity.standard = y.operands.2.map Quantity.standard := by
  cases resembles with
  | leaf label => exact ⟨rfl, rfl⟩
  | group label opening below => exact ⟨below.top.value, rfl⟩
  | fork label product first second => exact ⟨first.top.value, second.top.value⟩

theorem Resembles.reduceTop (resembles : x.Resembles y) : Alike Resembles x.reduceTop y.reduceTop := by
  unfold Tree.reduceTop
  rw [resembles.isLeaf, resembles.top.kind]
  split
  · exact resembles.differentiate
  · split
    · next equation => exact resembles.isolate (resembles.top.kind.trans equation)
    · have same := combination_standard resembles.top resembles.operands.1 resembles.operands.2
      cases here : combination x.top x.operands.1 x.operands.2 with
      | error error =>
        cases there : combination y.top y.operands.1 y.operands.2 with
        | error error' =>
          rw [here, there] at same
          exact Except.error.inj same
        | ok outcome => rw [here, there] at same; cases same
      | ok outcome =>
        cases there : combination y.top y.operands.1 y.operands.2 with
        | error error' => rw [here, there] at same; cases same
        | ok outcome' =>
          rw [here, there] at same
          have same := Except.ok.inj same
          cases outcome with
          | none =>
            obtain rfl := Option.map_eq_none_iff.mp same.symm
            exact resembles.defer
          | some p =>
            obtain ⟨q, rfl, same'⟩ := Option.map_eq_some_iff.mp same.symm
            exact settled_resembles resembles.top same'.symm

theorem Resembles.isPending (resembles : x.Resembles y) : x.isPending = y.isPending := by
  rw [Tree.isPending, Tree.isPending, resembles.top.isSettled, resembles.isLeaf, resembles.top.isDerivative]

theorem Resembles.pendingDepth (resembles : x.Resembles y) : x.pendingDepth = y.pendingDepth := by
  induction resembles with
  | leaf label => rw [Tree.pendingDepth, Tree.pendingDepth, (Resembles.leaf label).isPending]
  | group label opening below ih =>
    rw [Tree.pendingDepth, Tree.pendingDepth, ih, (Resembles.group label opening below).isPending]
  | fork label product first second ihl ihr =>
    rw [Tree.pendingDepth, Tree.pendingDepth, ihl, ihr, (Resembles.fork label product first second).isPending]

theorem NotOne.idle (factor : x.NotOne) : x.step? = none := by
  have leaf := factor.isLeaf
  have unmarked := factor.unmarked
  cases x with
  | leaf a =>
    have unmarked : a.call = none := unmarked
    simp [step?, Tree.isPending, Tree.isLeaf, Label.isDerivative, unmarked]
  | group | fork => cases leaf

/-- Each does what the other does. -/
theorem Resembles.step (resembles : x.Resembles y) : Option.Rel (Alike Resembles) x.step? y.step? := by
  induction resembles with
  | leaf label =>
    have whole := Resembles.leaf label
    simp only [step?, whole.isPending]
    split
    · exact .some whole.reduceTop
    · exact .none
  | @group a b x y label opening below ih =>
    have whole := Resembles.group label opening below
    simp only [step?, whole.isPending]
    generalize x.step? = r, y.step? = r' at ih
    cases ih with
    | some inner => exact .some (inner.map fun _ _ later => .group label opening later)
    | none =>
      simp only
      split
      · exact .some whole.reduceTop
      · exact .none
  | @fork a b left left' right right' label product first second ihl ihr =>
    have whole := Resembles.fork label product first second
    simp only [step?, whole.isPending, first.pendingDepth, second.pendingDepth]
    split
    · have stays : left.NotOne → left.step? = none := NotOne.idle
      generalize left.step? = r, left'.step? = r' at ihl stays
      cases ihl with
      | some inner =>
        refine .some (inner.map fun _ _ later => .fork label (fun times => ?_) later second)
        exact .inl ((product times).resolve_right fun factor => by cases stays factor)
      | none => exact .none
    · generalize right.step? = r, right'.step? = r' at ihr
      cases ihr with
      | some inner => exact .some (inner.map fun _ _ later => .fork label product first later)
      | none =>
        simp only
        split
        · exact .some whole.reduceTop
        · exact .none

theorem Resembles.next (resembles : x.Resembles y) : Option.Rel (Alike Resembles) x.next? y.next? := by
  rw [next?, next?, resembles.isPending]
  split
  · exact resembles.step
  · exact .none

/-- The runs go through trees that resemble each other, and end alike. -/
theorem Resembles.run (resembles : x.Resembles y) :
    List.Forall₂ Resembles x.run.1 y.run.1 ∧ x.run.2 = y.run.2 := by
  induction effort : x.effort using Nat.strong_induction_on generalizing x y with
  | _ n ih =>
    have next := resembles.next
    cases here : x.next? with
    | none =>
      rw [here] at next
      cases there : y.next? with
      | none =>
        rw [run_done here, run_done there]
        exact ⟨.nil, rfl⟩
      | some result => rw [there] at next; cases next
    | some result =>
      rw [here] at next
      cases there : y.next? with
      | none => rw [there] at next; cases next
      | some result' =>
        rw [there] at next
        cases next with
        | some alike =>
          cases result with
          | error error =>
            cases result' with
            | error error' =>
              rw [run_fails here, run_fails there]
              exact ⟨.nil, congrArg Except.error alike⟩
            | ok y' => cases alike
          | ok x' =>
            cases result' with
            | error error' => cases alike
            | ok y' =>
              have less : x'.effort < n := effort ▸ effort_next here
              obtain ⟨trees, ended⟩ := ih x'.effort less alike rfl
              rw [run_goes here, run_goes there]
              exact ⟨.cons alike trees, ended⟩

theorem Resembles.text (resembles : x.Resembles y) : x.text = y.text :=
  congrArg Rendered.text resembles.rendered

theorem Resembles.reduct (resembles : x.Resembles y) : x.reduct.Resembles y.reduct := by
  have trees := resembles.run.1
  rw [Tree.reduct, Tree.reduct]
  generalize x.run.1 = first, y.run.1 = second at trees
  induction trees generalizing x y with
  | nil => exact resembles
  | cons here later ih =>
    rw [List.getLastD_cons, List.getLastD_cons]
    exact ih here

def termNumber? : Quantity → Option (Float × String)
  | .trig t => t.value?.map (·, t.function.name)
  | .log t => t.value?.map (·, "log")
  | _ => none

theorem termNumber_redraw (g : Outline → Outline) (q : Quantity) :
    termNumber? (q.redraw g) = termNumber? q := by
  cases q with
  | trig t => exact congrArg (Option.map (·, t.function.name)) (t.value_redraw g)
  | log t => exact congrArg (Option.map (·, "log")) (t.value_redraw g)
  | constant x | polynomial p | fraction n d => rfl

theorem rootNumber_leaf (a : Mark) :
    (leaf a).rootNumber? = if a.call.isSome then a.value.bind termNumber? else none := by
  obtain ⟨token, call, value, reduced, deferred, unary⟩ := a
  cases call with
  | none => rfl
  | some keyword =>
    rcases value with _ | q
    · rfl
    · cases q <;> rfl

theorem Resembles.rootNumber (resembles : x.Resembles y) : x.rootNumber? = y.rootNumber? := by
  cases resembles with
  | leaf label => rw [rootNumber_leaf, rootNumber_leaf, label.called, label.value_bind (termNumber_redraw _)]
  | group label opening below => rfl
  | fork label product first second => rfl

theorem Resembles.simplifyRoot (resembles : x.Resembles y) :
    Alike Resembles x.simplifyRoot y.simplifyRoot := by
  have top := resembles.top
  have bare : ({ x.top with call := none } : Mark).Resembles { y.top with call := none } :=
    ⟨top.token, rfl, top.value, top.reduced, top.deferred, top.unary⟩
  rw [Tree.simplifyRoot, Tree.simplifyRoot, resembles.rootNumber]
  split
  · next n name _ =>
    cases Quantity.ofNumber n name with
    | error error => rfl
    | ok constant => exact .leaf (bare.collapse rfl)
  · exact resembles

theorem Resembles.linesWith (resembles : x.Resembles y) {more more' : List (Tree Mark)}
    (rest : List.Forall₂ Resembles more more') : x.linesWith more = y.linesWith more' := by
  have trees : List.Forall₂ Resembles (x.run.1 ++ more) (y.run.1 ++ more') :=
    List.rel_append resembles.run.1 rest
  have texts : (x.run.1 ++ more).map Tree.text = (y.run.1 ++ more').map Tree.text := by
    generalize x.run.1 ++ more = first, y.run.1 ++ more' = second at trees
    induction trees with
    | nil => rfl
    | cons here later ih => rw [List.map_cons, List.map_cons, here.text, ih]
  rw [Tree.linesWith, Tree.linesWith, Tree.opening, Tree.opening, resembles.text, texts]

/-- Prepared trees that resemble each other show the same lines and end alike. -/
theorem Resembles.reduceFully (resembles : x.Resembles y) :
    x.reduceFully.lines = y.reduceFully.lines ∧ x.reduceFully.ended = y.reduceFully.ended := by
  have alike := resembles.reduct.simplifyRoot
  have ended := resembles.run.2
  unfold Tree.reduceFully
  rw [ended]
  split
  · exact ⟨resembles.linesWith .nil, rfl⟩
  · cases here : x.reduct.simplifyRoot with
    | error error =>
      cases there : y.reduct.simplifyRoot with
      | error error' =>
        rw [here, there] at alike
        exact ⟨resembles.linesWith .nil, congrArg Except.error alike⟩
      | ok z => rw [here, there] at alike; cases alike
    | ok w =>
      cases there : y.reduct.simplifyRoot with
      | error error' => rw [here, there] at alike; cases alike
      | ok z =>
        rw [here, there] at alike
        have alike : w.Resembles z := alike
        have lines := resembles.linesWith (.cons alike .nil)
        simp only [lines, alike.text, and_self]

end Tree

end Stepwise
