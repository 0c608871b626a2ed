import Stepwise.Proofs.Reduction.Lockstep

/-! Trees that resemble each other are prepared alike. Main statement: formulas that display them
are evaluated to the same value. -/
namespace Stepwise

open Expression (standard_faithful)

namespace Tree

variable {x y left left' right right' : Tree Mark} {a b : Mark}

/-! A number that is not written as 1 stays one. -/

theorem NotOne.foldFactorials (factor : x.NotOne) : x.foldFactorials = (x, .ok ()) := by
  cases x with
  | leaf a =>
    have number : a.token.kind = .number := factor.number
    simp [Tree.foldFactorials, number]
  | group | fork => cases factor.isLeaf

theorem NotOne.recognize (factor : x.NotOne) : x.recognize = x := by
  cases x with
  | leaf a =>
    have number : a.token.kind = .number := factor.number
    simp [Tree.recognize, recognized?, monomial?, number]
  | group | fork => cases factor.isLeaf

theorem attachNumber_again (a : Mark) : a.attachNumber.attachNumber = a.attachNumber := by
  unfold Label.attachNumber
  by_cases bare : a.value.isNone ∧ a.token.kind = .number
  · rw [if_pos bare]
    cases read : Decimal.read? a.token.text with
    | some n => rfl
    | none =>
      simp only [read]
      exact if_pos bare
  · rw [if_neg bare, if_neg bare]

theorem attachNumber_kind {a : Mark} (number : a.token.kind = .number) :
    a.attachNumber.token.kind = .number := by
  unfold Label.attachNumber
  split
  · split
    · rfl
    · exact number
  · exact number

theorem attachNumber_call (a : Mark) : a.attachNumber.call = a.call := by
  unfold Label.attachNumber
  split
  · split <;> rfl
  · rfl

theorem NotOne.attachQuantities (factor : x.NotOne) : x.attachQuantities.NotOne := by
  cases x with
  | leaf a =>
    have unmarked : a.attachNumber.call = none := (attachNumber_call a).trans factor.unmarked
    have attached : (leaf a).attachQuantities = leaf a.attachNumber :=
      congrArg leaf (attachCall_unmarked unmarked)
    have text : a.attachNumber.token.text ≠ "1" := factor.attached
    rw [attached]
    exact ⟨rfl, attachNumber_kind factor.number, unmarked, text, by rwa [top_leaf, attachNumber_again]⟩
  | group | fork => cases factor.isLeaf

/-! Preparing keeps trees alike. -/

theorem Resembles.foldFactorials (resembles : x.Resembles y) :
    x.foldFactorials.1.Resembles y.foldFactorials.1 ∧ x.foldFactorials.2 = y.foldFactorials.2 := by
  induction resembles with
  | @leaf a b label =>
    simp only [Tree.foldFactorials, label.kind, label.text]
    split
    · split
      · exact ⟨.leaf (label.collapse rfl), rfl⟩
      · exact ⟨.leaf label, rfl⟩
    · exact ⟨.leaf label, rfl⟩
  | group label opening below ih => exact ⟨.group label opening ih.1, ih.2⟩
  | @fork a b left left' right right' label product first second ihl ihr =>
    have stays : left.NotOne → left.foldFactorials.1 = left := fun factor => by rw [factor.foldFactorials]
    have product' : a.token.kind = .times → a.token.isInserted = b.token.isInserted ∨
        left.foldFactorials.1.NotOne :=
      fun times => (product times).imp_right fun factor => by rwa [stays factor]
    obtain ⟨folded, ended⟩ := ihl
    simp only [Tree.foldFactorials]
    generalize left.foldFactorials = l, left'.foldFactorials = l' at folded ended product' ⊢
    obtain ⟨l, outcome⟩ := l
    obtain ⟨l', outcome'⟩ := l'
    obtain rfl : outcome = outcome' := ended
    cases outcome with
    | error error => exact ⟨.fork label product' folded second, rfl⟩
    | ok done => exact ⟨.fork label product' folded ihr.1, ihr.2⟩

theorem Resembles.numberLeaf (resembles : x.Resembles y) : x.numberLeaf? = y.numberLeaf? := by
  cases resembles with
  | leaf label =>
    simp only [numberLeaf?, label.kind, label.text, ← Option.not_isSome, label.called]
  | group label opening below => rfl
  | fork label product first second => rfl

theorem Resembles.letterLeaf (resembles : x.Resembles y) : x.letterLeaf? = y.letterLeaf? := by
  cases resembles with
  | leaf label =>
    simp only [letterLeaf?, label.kind, label.text, ← Option.not_isSome, label.called]
  | group label opening below => rfl
  | fork label product first second => rfl

theorem Resembles.monomial (resembles : x.Resembles y) : x.monomial? = y.monomial? := by
  cases resembles with
  | leaf label => rfl
  | group label opening below => rfl
  | fork label product first second =>
    cases second with
    | leaf label' => rfl
    | group label' opening below => rfl
    | fork label' product' base exponent =>
      simp only [monomial?, label.kind, label.valued, first.numberLeaf, label'.kind,
        base.letterLeaf, exponent.numberLeaf]

theorem Resembles.recognized (resembles : x.Resembles y) : x.recognized? = y.recognized? := by
  simp only [recognized?, resembles.monomial, resembles.isLeaf, resembles.top.kind, resembles.top.text]

theorem Resembles.recognize (resembles : x.Resembles y) : x.recognize.Resembles y.recognize := by
  induction resembles with
  | leaf label =>
    simp only [Tree.recognize, (Resembles.leaf label).recognized]
    split
    · exact .leaf (label.collapse rfl)
    · exact .leaf label
  | group label opening below ih => exact .group label opening ih
  | fork label product first second ihl ihr =>
    simp only [Tree.recognize, (Resembles.fork label product first second).recognized]
    split
    · exact .leaf (label.collapse rfl)
    · refine .fork label (fun times => (product times).imp_right fun factor => ?_) ihl ihr
      rwa [factor.recognize]

theorem attachNumber_resembles (label : a.Resembles b) : a.attachNumber.Resembles b.attachNumber := by
  simp only [Label.attachNumber, ← Option.not_isSome, label.valued, label.kind, label.text]
  split
  · split
    · exact label.collapse rfl
    · exact label
  · exact label

theorem Resembles.attachCall (resembles : x.Resembles y) : x.attachCall.Resembles y.attachCall := by
  have top := resembles.top
  have term : x.top.value.any Formula.isTerm = y.top.value.any Formula.isTerm :=
    top.value_any (Quantity.isTerm_redraw _)
  simp only [Tree.attachCall, top.termKeyword, top.isDerivative, term]
  split
  · next keyword _ =>
    split
    · exact top
    · exact ⟨top.token, top.call, congrArg some (resembles.callTerm keyword rfl), resembles.isLeaf,
        top.deferred, top.unary⟩
  · split
    · exact ⟨top.token, top.call, top.value, rfl, top.deferred, top.unary⟩
    · exact top

theorem Resembles.attachQuantities (resembles : x.Resembles y) :
    x.attachQuantities.Resembles y.attachQuantities := by
  have token (x : Tree Mark) : x.attachCall.token = x.top.token := by
    unfold Tree.attachCall
    repeat' split
    all_goals rfl
  induction resembles with
  | leaf label => exact .leaf (Resembles.leaf (attachNumber_resembles label)).attachCall
  | group label opening below ih =>
    exact .group (Resembles.group label opening below).attachCall (by rwa [token]) ih
  | fork label product first second ihl ihr =>
    refine .fork (Resembles.fork label product first second).attachCall ?_ ihl ihr
    rw [token, token]
    exact fun times => (product times).imp_right NotOne.attachQuantities

theorem Resembles.prepare (resembles : x.Resembles y) :
    x.prepare.1.Resembles y.prepare.1 ∧ x.prepare.2 = y.prepare.2 := by
  obtain ⟨folded, ended⟩ := resembles.foldFactorials
  unfold Tree.prepare
  generalize x.foldFactorials = l, y.foldFactorials = r at folded ended ⊢
  obtain ⟨l, outcome⟩ := l
  obtain ⟨r, outcome'⟩ := r
  obtain rfl : outcome = outcome' := ended
  cases outcome with
  | error error => exact ⟨folded, rfl⟩
  | ok done => exact ⟨folded.recognize.attachQuantities, rfl⟩

/-- Trees that resemble each other show the same lines and end alike. -/
theorem Resembles.trace (resembles : x.Resembles y) :
    x.trace.lines = y.trace.lines ∧ x.trace.ended = y.trace.ended := by
  obtain ⟨prepared, ended⟩ := resembles.prepare
  unfold Tree.trace
  generalize x.prepare = l, y.prepare = r at prepared ended ⊢
  obtain ⟨l, outcome⟩ := l
  obtain ⟨r, outcome'⟩ := r
  obtain rfl : outcome = outcome' := ended
  cases outcome with
  | error error =>
    exact ⟨congrArg (fun text => ["Expression: " ++ text]) prepared.text, rfl⟩
  | ok done => exact prepared.reduceFully

theorem Resembles.value (resembles : x.Resembles y) : x.trace.value = y.trace.value := by
  rw [Result.value, Result.value, resembles.trace.1, resembles.trace.2]

end Tree

end Stepwise
