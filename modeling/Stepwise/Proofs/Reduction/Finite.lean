import Stepwise.Proofs.Reduction.Again
import Stepwise.Proofs.Reduction.Shown

/-! Evaluations without an infinity or NaN. An operation on two numbers is tested, and so is what
becomes of a term at the root. Main statement: as long as the numbers that nothing tests stay
finite, no line shows an infinity or NaN, the last formula holds none, and its value is finite. -/
namespace Stepwise

open Decimal (isFinite)

instance : DecidablePred Argument.IsFinite
  | .numeric x => inferInstanceAs (Decidable (isFinite x = true))
  | .symbolic _ => isTrue trivial

instance (p : Polynomial) : Decidable p.IsFinite :=
  decidable_of_iff (p.coefficients.toList.all isFinite)
    (by rw [List.all_eq_true]; simp only [Array.mem_toList_iff]; rfl)

instance decidableIsFinite : DecidablePred Quantity.IsFinite
  | .constant x => inferInstanceAs (Decidable (isFinite x = true))
  | .polynomial p => inferInstanceAs (Decidable p.IsFinite)
  | .trig t => inferInstanceAs (Decidable (t.argument.IsFinite ∧ isFinite t.coef ∧ isFinite t.power))
  | .log t =>
    inferInstanceAs
      (Decidable (isFinite t.base ∧ t.argument.IsFinite ∧ isFinite t.coef ∧ isFinite t.power))
  | .fraction n d =>
    have := decidableIsFinite n
    have := decidableIsFinite d
    inferInstanceAs (Decidable (n.IsFinite ∧ d.IsFinite))

namespace Tree

def IsTested (x : Tree Mark) : Prop :=
  (x.operands.1.bind Quantity.value?).isSome ∧ (x.operands.2.bind Quantity.value?).isSome

def outcome? (x : Tree Mark) : Option Quantity :=
  if x.isLeaf then x.top.value.bind Quantity.derivative?
  else match combination x.top x.operands.1 x.operands.2 with
    | .ok result => result
    | .error _ => none

def Tame (x : Tree Mark) : Prop :=
  ∀ q, x.outcome? = some q → x.IsTested ∨ (q.IsFinite ∧ (x.top.termKeyword?.isSome → q.AmountsFinite))

variable {x y : Tree Mark} {a : Mark} {q : Quantity}

theorem value_fit (finite : q.IsFinite) (reduced : q.IsReduced) : (value q).Fit Label.IsShown :=
  Label.IsFit.collapse (a := { token := default }) ⟨(by simp), (by simp)⟩ finite reduced

theorem settled_fit (label : a.IsFit) (finite : q.IsFinite) (reduced : q.IsReduced)
    (amount : a.termKeyword?.isSome → q.AmountsFinite) : (settled a q).Fit Label.IsShown := by
  obtain ⟨label', shown⟩ := label.collapse finite reduced
  have collapsed : (leaf (a.collapse q)).Fit Label.IsShown := ⟨label', shown⟩
  unfold settled
  cases term : a.termKeyword? with
  | some keyword =>
    have called : a.call ≠ none := fun call => by simp [Label.termKeyword?, call] at term
    refine ⟨⟨label'.call, fun v same => Option.some.inj same ▸ callTerm_fit (collapsed.worded
      fun _ shown => shown.word) (fun _ v same => Option.some.inj same ▸ amount (by simp [term]))
      keyword fun v member => (label.value v member).1⟩, shown.word, fun call => absurd call called⟩
  | none =>
    simp only
    split
    · exact ⟨⟨label'.call, label'.value⟩, shown.word, shown.token⟩
    · exact collapsed

/-- What an operator or a group gives is fit for its node. -/
theorem combination_fit (fit : x.Fit Label.IsShown) (tame : x.Tame) (inner : x.isLeaf = false)
    (combined : combination x.top x.operands.1 x.operands.2 = .ok (some q)) :
    q.IsFinite ∧ q.IsReduced ∧ (x.top.termKeyword?.isSome → q.AmountsFinite) := by
  have here := tame q (by simp [outcome?, inner, combined])
  cases x with
  | leaf a => cases inner
  | group a inside =>
    have passed : inside.top.value = some q := by
      obtain ⟨-, ⟨opening, -⟩, -⟩ := fit
      simpa [combination, operands, opening] using combined
    obtain ⟨finite, reduced⟩ := fit.2.2.top.value q passed
    exact ⟨finite, reduced, (here.resolve_left fun tested => by cases tested.2).2⟩
  | fork a left right =>
    obtain ⟨-, operator, l, r⟩ := fit
    have rank := operator.rank
    unfold combination at combined
    simp only [operands, top_fork] at combined
    split at combined
    · next operation p p' kind first second =>
      obtain ⟨-, reducedl⟩ := l.top.value p first
      obtain ⟨-, reducedr⟩ := r.top.value p' second
      have offers := Quantity.apply_offers operation reducedl.flat reducedr.flat
      rw [combined] at offers
      have reduced : q.IsReduced := offers q rfl
      rcases here with tested | ⟨finite, amount⟩
      · have settles := Quantity.apply_settles operation (a := p) (b := p')
          (by simpa [operands, first] using tested.1) (by simpa [operands, second] using tested.2)
        rw [combined] at settles
        obtain ⟨_, same, settled⟩ := settles
        obtain rfl := Option.some.inj same
        obtain ⟨v, value, finite⟩ := settled.value
        exact ⟨settled.isFinite, reduced, fun _ w value' =>
          Option.some.inj (value.symm.trans value') ▸ finite⟩
      · exact ⟨finite, reduced, amount⟩
    · have other : a.token.kind ≠ .opening := fun opening => by
        rw [opening] at rank
        cases rank
      simp [other] at combined

theorem Fit.defer (fit : x.Fit Label.IsShown)
    (put : x.isLeaf = false → combination x.top x.operands.1 x.operands.2 = .ok none) :
    x.defer.Fit Label.IsShown := by
  cases x with
  | leaf a => exact ⟨⟨fit.1.call, fit.1.value⟩, fit.2.word, fit.2.token⟩
  | group a inner => exact ⟨⟨⟨fit.1.call, fit.1.value⟩, fit.1.term⟩, fit.2.1, fit.2.2⟩
  | fork a left right =>
    obtain ⟨label, operator, l, r⟩ := fit
    exact ⟨⟨⟨label.call, label.value⟩, label.term⟩,
      ⟨operator.rank, operator.spelled, operator.unary, fun _ => put rfl⟩, l, r⟩

theorem Fit.differentiate (fit : (leaf a).Fit Label.IsShown) (tame : (leaf a).Tame) :
    (leaf a).differentiate.Fit Label.IsShown := by
  unfold Tree.differentiate
  cases derived : (leaf a).top.value.bind Quantity.derivative? with
  | none => exact fit.defer fun inner => (by cases inner)
  | some d =>
    have finite := (tame d (by simpa [outcome?, isLeaf] using derived)).resolve_left
      fun tested => by cases tested.1
    obtain ⟨q, value, derivative⟩ := Option.bind_eq_some_iff.mp derived
    have bare : ({ a with call := none } : Mark).IsFit := ⟨(by simp), fit.1.value⟩
    exact bare.collapse finite.1 (Quantity.derivative_reduced (fit.1.value q value).2.flat derivative)

/-- A polynomial of degree one that a side of an equation is. -/
theorem linear_fit {p : Polynomial} (fit : x.Fit Label.IsShown) (linear : x.linear? = some p) :
    p.IsFinite ∧ p.IsNamed ∧ (p.coefficient 1 == 0.0) = false := by
  unfold linear? at linear
  split at linear
  · next r value =>
    split at linear
    · next degree =>
      obtain rfl := Option.some.inj linear
      obtain ⟨finite, reduced⟩ := fit.top.value _ value
      have named : r.IsNamed := reduced.isNamed
      exact ⟨finite, named, named.slope degree⟩
    · cases linear
  · cases linear

theorem Fit.isolate {left right : Tree Mark} (fit : (fork a left right).Fit Label.IsShown)
    (undeferred : a.deferred = false) (equation : a.token.kind = .equals) :
    (fork a left right).isolate.Fit Label.IsShown := by
  have zero : isFinite (0.0 : Float) := Decimal.IsRational.zero.isFinite
  have one : isFinite (1.0 : Float) := Decimal.IsRational.one.isFinite
  obtain ⟨label, operator, l, r⟩ := fit
  have anew (first second : Tree Mark) : IsOperator a first second :=
    ⟨operator.rank, operator.spelled, fun sign => absurd equation (operator.unary sign).1,
      fun put => by simp [undeferred] at put⟩
  have inserted {kind : Token.Kind} {text : String} {first second : Tree Mark} (rank : kind.rank?.isSome)
      (spelled : (Token.inserted kind text).Spelled) (l : first.Fit Label.IsShown)
      (r : second.Fit Label.IsShown) :
      (fork { token := .inserted kind text } first second).Fit Label.IsShown :=
    ⟨⟨⟨(by simp), (by simp)⟩, (by simp)⟩, ⟨rank, spelled, (by simp), (by simp)⟩, l, r⟩
  have constant {x : Float} (finite : isFinite x) : (value (.constant x)).Fit Label.IsShown :=
    value_fit finite (Quantity.simple_constant x).reduced
  have monomial {x : Float} (finite : isFinite x) (nonzero : (x == 0.0) = false) {p : Polynomial}
      (named : p.IsNamed) : (value (.polynomial (.monomial x 1 p.letter))).Fit Label.IsShown := by
    refine value_fit (Polynomial.monomial_finite finite 1 p.letter) (Quantity.polynomial_reduced
      (Polynomial.monomial_named named.low named.high x 1) ?_)
    rw [Polynomial.degree_monomial nonzero]
    exact Nat.one_ne_zero
  have settled : (fork a left right).settleEquation.Fit Label.IsShown :=
    ⟨⟨⟨label.call, label.value⟩, label.term⟩, (anew left right).relabel rfl rfl (by simp), l, r⟩
  simp only [Tree.isolate]
  split
  · exact ⟨label, anew _ _, inserted rfl rfl l r, constant zero⟩
  · split
    · next p linear =>
      obtain ⟨finite, named, nonzero⟩ := linear_fit l linear
      have offset := finite.coefficient 0
      split
      · have moved :
            (fork { token := (offsetMove p).1 } right (value (.constant (offsetMove p).2))).Fit
            Label.IsShown := by
          unfold offsetMove
          split
          · exact inserted rfl rfl r (constant (Decimal.isFinite_neg offset))
          · exact inserted rfl rfl r (constant offset)
        exact ⟨label, anew _ _, monomial (finite.coefficient 1) nonzero named, moved⟩
      · split
        · exact ⟨label, anew _ _, monomial one rfl named,
            inserted rfl rfl r (constant (finite.coefficient 1))⟩
        · exact settled
    · exact settled

/-- A reduction keeps a tree fit when what it gives is finite. -/
theorem Fit.reduceTop (fit : x.Fit Label.IsShown) (pending : x.isPending) (tame : x.Tame)
    (reduced : x.reduceTop = .ok y) :
    y.Fit Label.IsShown := by
  have undeferred : x.top.deferred = false := by
    simp only [isPending, Label.isSettled, Bool.and_eq_true, Bool.not_eq_true',
      Bool.or_eq_false_iff] at pending
    exact pending.1.2
  unfold Tree.reduceTop at reduced
  split at reduced
  · next isLeaf =>
    obtain rfl := Except.ok.inj reduced
    cases x with
    | leaf a => exact fit.differentiate tame
    | group a inner => cases isLeaf
    | fork a left right => cases isLeaf
  · next inner =>
    have inner : x.isLeaf = false := by simpa using inner
    split at reduced
    · next equation =>
      obtain rfl := Except.ok.inj reduced
      cases x with
      | leaf a => cases inner
      | group a inside =>
        rw [top_group, fit.2.1.1] at equation
        cases equation
      | fork a left right => exact fit.isolate undeferred equation
    · split at reduced
      · next v combined =>
        obtain rfl := Except.ok.inj reduced
        obtain ⟨finite, reduced, amount⟩ := combination_fit fit tame inner combined
        exact settled_fit fit.top finite reduced amount
      · next combined =>
        obtain rfl := Except.ok.inj reduced
        exact fit.defer fun _ => combined
      · cases reduced

end Tree

namespace Formula

open Expression

variable {e f g : Formula}

/-- Both operands of a node have numbers. Operations on numbers test their results. -/
def IsTested (e : Formula) (id : NodeId) : Prop :=
  (((e.node id).left.bind fun child => (e.node child).value).bind Quantity.value?).isSome ∧
    (((e.node id).right.bind fun child => (e.node child).value).bind Quantity.value?).isSome

def outcome? (e : Formula) (id : NodeId) : Option Quantity :=
  let node := e.node id
  if node.isLeaf then node.value.bind Quantity.derivative?
  else match combination e node with
    | .ok result => result
    | .error _ => none

/-- Where the evaluation does not test what it forms, it is finite all the same: the numbers in what
polynomials and terms combine to and in derivatives, and what a call takes for a number. -/
def StaysFinite (e : Formula) : Prop :=
  ∀ f id q, Passes e f → isPending (f.node f.root) → deepestPending f = some id → outcome? f id = some q →
    IsTested f id ∨ (q.IsFinite ∧ ((termKeyword? (f.node id)).isSome → q.AmountsFinite))

instance (e : Formula) (id : NodeId) : Decidable (IsTested e id) := inferInstanceAs (Decidable (_ ∧ _))

theorem outcome_eq {t : Tree NodeId} (links : e.Links t) : outcome? e t.top = (e.view t).outcome? := by
  have isLeaf : (e.view t).isLeaf = (e.node t.top).isLeaf := by simp [Expression.view, links.isLeaf_eq]
  have top : (e.view t).top = (e.node t.top).label := by simp [Expression.view]
  simp only [outcome?, Tree.outcome?, isLeaf, combination_eq links, top]
  rfl

theorem isTested_iff {t : Tree NodeId} (links : e.Links t) : IsTested e t.top ↔ (e.view t).IsTested := by
  have value (u : Tree NodeId) : (e.view u).top.value = (e.node u.top).value := by
    simp [Expression.view, Node.label]
  cases t with
  | leaf id => simp only [IsTested, Tree.top_leaf, links.1, links.2]; rfl
  | group id inner =>
    simp only [IsTested, Tree.IsTested, Tree.top_group, links.1, links.2.1, view_group, Tree.operands, value]
    rfl
  | fork id left right =>
    simp only [IsTested, Tree.IsTested, Tree.top_fork, links.1, links.2.1, view_fork, Tree.operands, value]
    rfl

theorem StaysFinite.tame {t : Tree NodeId} (stays : e.StaysFinite) (passes : Passes e f)
    (pending : isPending (f.node f.root)) (found : deepestPending f = some t.top)
    (links : f.Links t) : (f.view t).Tame := by
  intro q outcome
  have top : (f.view t).top = (f.node t.top).label := by simp [Expression.view]
  rw [← isTested_iff links, top]
  exact stays f t.top q passes pending found ((outcome_eq links).trans outcome)

theorem own_top {t : Tree NodeId} (pending : (e.view t).isPending) : own? e t = some (t.top, 0) := by
  rw [own?, if_pos pending]

/-- A step keeps a tree fit when the node that is reduced is tame. -/
theorem fit_step {t : Tree NodeId} {y : Tree Mark} (links : e.Links t) (sound : (e.view t).Sound)
    (fit : (e.view t).Fit Label.IsShown)
    (tame : ∀ hit (s : Tree NodeId), finding e t = some hit → s.top = hit.1 → e.Links s → (e.view s).Tame)
    (stepped : (e.view t).step? = some (.ok y)) : y.Fit Label.IsShown := by
  induction t generalizing y with
  | leaf id =>
    obtain ⟨pending, reduced⟩ := Tree.step_leaf_cases stepped
    exact fit.reduceTop pending (tame _ (.leaf id) (own_top pending) rfl links) reduced.symm
  | group id inner ih =>
    rw [view_group] at stepped fit sound
    rcases Tree.step_group_cases stepped with ⟨r, here, result⟩ | ⟨idle, pending, reduced⟩
    · obtain ⟨z, rfl, rfl⟩ := of_map_ok result.symm
      refine ⟨fit.1, fit.2.1, ih links.2.2 sound.2.2.2 fit.2.2 (fun hit s found top links => ?_) here⟩
      exact tame (below 1 hit) s (by simp [finding, found]) top links
    · have found : finding e (.group id inner) = some (id, 0) := by
        rw [finding, finding_none.mpr idle]
        exact own_top pending
      exact fit.reduceTop pending (tame _ (.group id inner) found rfl links) reduced.symm
  | fork id left right ihl ihr =>
    rw [view_fork] at stepped fit sound
    obtain ⟨label, operator, l, r⟩ := fit
    obtain ⟨-, rest, soundl, soundr⟩ := sound
    -- an operand that is changed is neither hidden nor below a settled node
    have changed {y z : Tree Mark} (busy : (e.view left).step? ≠ none ∨ (e.view right).step? ≠ none)
        (kept : (e.view left).step? ≠ none ∨ y = e.view left) : Tree.IsOperator (e.node id).label y z := by
      have undeferred : (e.node id).label.deferred = false := by
        refine Bool.eq_false_iff.mpr fun put => ?_
        obtain ⟨idlel, idler⟩ := rest (by simp [Label.isSettled, put])
        exact busy.elim (fun h => h ((Tree.step_none_iff _).mpr idlel)) fun h =>
          h ((Tree.step_none_iff _).mpr idler)
      refine operator.over undeferred fun hidden => ?_
      rcases kept with active | rfl
      · obtain ⟨b, same, call, -⟩ := hidden
        rw [same] at active
        exact absurd (by simp [Tree.step?, Tree.isPending, Tree.isLeaf, Label.isDerivative, call]) active
      · exact hidden
    by_cases deeper : Tree.deeper (e.view left).pendingDepth (e.view right).pendingDepth
    · rw [Tree.step?, if_pos deeper] at stepped
      obtain ⟨result, here, mapped⟩ := Option.map_eq_some_iff.mp stepped
      obtain ⟨z, rfl, rfl⟩ := of_map_ok mapped
      have active : (e.view left).step? ≠ none := by simp [here]
      refine ⟨label, changed (.inl active) (.inl active),
        ihl links.2.2.1 soundl l (fun hit s found top links => ?_) here, r⟩
      exact tame (below 1 hit) s (by simp [finding, deeper, found]) top links
    · rw [Tree.step?, if_neg deeper] at stepped
      cases here : (e.view right).step? with
      | some result =>
        rw [here] at stepped
        obtain ⟨z, rfl, rfl⟩ := of_map_ok (Option.some.inj stepped)
        have active : (e.view right).step? ≠ none := by simp [here]
        refine ⟨label, changed (.inr active) (.inr rfl), l,
          ihr links.2.2.2 soundr r (fun hit s found top links => ?_) here⟩
        exact tame (below 1 hit) s (by simp [finding, deeper, found]) top links
      | none =>
        rw [here] at stepped
        have found : finding e right = none := finding_none.mpr ((Tree.step_none_iff _).mp here)
        simp only at stepped
        split at stepped
        · next pending =>
          have own : finding e (.fork id left right) = some (id, 0) := by
            simp only [finding, deeper, found, Option.map_none, Option.none_or]
            exact own_top pending
          have whole : (e.view (.fork id left right)).Fit Label.IsShown := ⟨label, operator, l, r⟩
          exact whole.reduceTop pending (tame _ (.fork id left right) own rfl links) (Option.some.inj stepped)
        · cases stepped

/-- The formulas that an evaluation passes are fit. -/
theorem Passes.fit {t : Tree NodeId} (spans : e.Spans t) (root : t.top = e.root) (sound : (e.view t).Sound)
    (fit : (e.view t).Fit Label.IsShown) (stays : e.StaysFinite) (passes : Passes e f) :
    ∃ u, Stands e t f u ∧ (f.view u).Fit Label.IsShown := by
  have replaced {g h : Formula} {u : Tree NodeId} {y : Tree Mark} (stands : Stands e t g u)
      (replaces : Replaces g u h y) (sound : y.Sound) (fit : y.Fit Label.IsShown) :
      ∃ v, Stands e t h v ∧ (h.view v).Fit Label.IsShown := by
    obtain ⟨v, later⟩ := stands.replaced replaces sound
    obtain rfl := (replaces.displays stands.root).unique ⟨v, later.spans, later.root, rfl⟩
    exact ⟨v, later, fit⟩
  induction passes with
  | prepared => exact ⟨t, ⟨spans, root, sound, Nat.le_refl _, fun _ member => .inl member⟩, fit⟩
  | @reduced f g id earlier pending found reduced ih =>
    obtain ⟨u, stands, fit⟩ := ih
    have alike := step_alike stands.spans
    have target := found
    rw [deepestPending_eq stands.spans stands.root, target?] at target
    obtain ⟨hit, here, rfl⟩ := Option.map_eq_some_iff.mp target
    rw [here] at alike
    obtain ⟨result, stepped, alike⟩ := alike
    cases result with
    | error error => simp [reduced, Alike] at alike
    | ok y =>
      refine replaced stands (by simpa [reduced, Alike] using alike) (stands.sound.step stepped)
        (fit_step stands.spans.links stands.sound fit (fun other s here' top links => ?_) stepped)
      obtain rfl := Option.some.inj (here.symm.trans here')
      exact stays.tame earlier pending (top ▸ found) links
  | @simplified f g _ _ simplified ih =>
    obtain ⟨u, stands, fit⟩ := ih
    unfold simplifyRoot at simplified
    split at simplified
    · next x name _ =>
      obtain ⟨constant, formed, rfl⟩ := of_map_ok simplified
      rw [← stands.root]
      have bare : ({ (f.node u.top).label with call := none } : Mark).IsFit := by
        have top : (f.view u).top = (f.node u.top).label := by simp [Expression.view]
        exact ⟨(by simp), top ▸ fit.top.value⟩
      unfold Quantity.ofNumber at formed
      split at formed
      · next finite =>
        obtain rfl := Except.ok.inj formed
        exact replaced stands (uncall_replaces stands.spans _) ⟨rfl, Label.current_of_no_term rfl⟩
          (bare.collapse finite (Quantity.simple_constant x).reduced)
      · cases formed
    · exact Except.ok.inj simplified ▸ ⟨u, stands, fit⟩

def ShowsFinite (line : String) : Prop := ¬ "inf".toList <:+: line.toList ∧ ¬ "NaN".toList <:+: line.toList

theorem showsFinite_of_sober {line : String} (sober : Text.IsSober line.toList) : ShowsFinite line :=
  ⟨sober.no_infinity, sober.no_nan⟩

theorem showsFinite_opening {line : String} (sober : Text.IsSober line.toList) :
    ShowsFinite ("Expression: " ++ line) := by
  have text : ("Expression: " ++ line).toList = "Expression:".toList ++ ' ' :: line.toList := by simp
  constructor
  · rw [text]
    intro inside
    have chain : ("Expression:".toList ++ ' ' :: line.toList).IsChain fun c d => c = 'n' →
        d.isAlpha = false :=
      List.IsChain.append (by decide) (sober.cons rfl).chain fun _ _ _ member _ =>
        Option.mem_some_iff.mp member ▸ rfl
    have shorter := List.IsChain.infix chain inside
    exact absurd shorter (by decide)
  · rw [text]
    intro inside
    have member : 'N' ∈ "Expression:".toList ++ ' ' :: line.toList := inside.subset (by decide)
    rcases List.mem_append.mp member with here | here
    · exact absurd here (by decide)
    · exact absurd ((sober.cons rfl).capital 'N' here) (by decide)

structure Trace.Follows (e : Formula) (t : Trace) : Prop where
  passes : Passes e t.formula
  steps : ∀ line ∈ t.steps, line = "Expression: " ++ e.render ∨ ∃ f, Passes e f ∧ line = f.render
  last : t.last = t.formula.render

theorem Trace.Follows.record {t : Trace} (follows : t.Follows e) (passes : Passes e f) :
    (t.record f).Follows e := by
  unfold Trace.record
  simp only
  split
  · next same => exact ⟨passes, follows.steps, same.symm⟩
  · refine ⟨passes, fun line member => ?_, rfl⟩
    rcases Array.mem_push.mp member with member | rfl
    · exact follows.steps line member
    · exact .inr ⟨f, passes, rfl⟩

theorem reduceWhilePending_follows {t : Trace} (follows : t.Follows e) (fuel : Nat) :
    (t.reduceWhilePending fuel).1.Follows e := by
  induction fuel generalizing t with
  | zero => exact follows
  | succ fuel ih =>
    unfold Trace.reduceWhilePending
    split
    · next pending =>
      split
      · exact follows
      · next id found =>
        split
        · next g reduced => exact ih (follows.record (.reduced follows.passes pending found reduced))
        · exact follows
    · exact follows

/-- Every line of an evaluation shows a formula that it passes. -/
theorem lines_of_trace {t : Tree NodeId} (prepared : prepare e = (f, .ok ())) (spans : f.Spans t)
    (root : t.top = f.root) :
    ∀ line ∈ (trace e).1.steps, line = "Expression: " ++ f.render ∨ ∃ g, Passes f g ∧ line = g.render := by
  have displays : f.Displays (f.view t) := ⟨t, spans, root, rfl⟩
  obtain ⟨n, g, ended, few, reductions⟩ := reductions_of_displays displays
  obtain ⟨same, outcome⟩ :=
    reductions.loop (Nat.le_trans few (effort_le_limit displays)) (t := .opening f) rfl
  obtain ⟨-, settled⟩ := reductions.passes .prepared
  have opening : (Trace.opening f).Follows f :=
    ⟨.prepared, fun line member => .inl (by simpa [Trace.opening] using member), rfl⟩
  have follows := reduceWhilePending_follows opening (reductionLimit f)
  rw [trace, prepared]
  simp only
  generalize (Trace.opening f).reduceWhilePending (reductionLimit f) = reduced at same outcome follows ⊢
  obtain ⟨t, stop⟩ := reduced
  obtain rfl : t.formula = g := same
  obtain rfl : stop = ended := outcome
  cases stop with
  | error error => exact follows.steps
  | ok done =>
    cases done
    simp only
    cases simplified : simplifyRoot t.formula with
    | error error => exact follows.steps
    | ok h =>
      have later : Passes f h := .simplified follows.passes (settled rfl) simplified
      have recorded := follows.record later
      simp only
      split
      · intro line member
        rcases Array.mem_push.mp member with member | rfl
        · exact recorded.steps line member
        · exact .inr ⟨h, later, by rw [recorded.last, record_formula]⟩
      · exact recorded.steps

/-- A text with finite numbers is prepared to a fit tree. -/
theorem fit_of_parsed {text : String} {x : Tree Mark} (built : Tree.ofText text = .ok x)
    (displays : e.Displays x)
    (literals : ∀ id v, e.Reaches e.root id → (e.node id).token.kind = .number →
      Decimal.read? (e.node id).token.text = some v → isFinite v) :
    x.prepare.1.Fit Label.IsShown := by
  have grammatical := Tree.ofText_grammatical built
  obtain ⟨t, spans, root, rfl⟩ := displays
  refine Tree.Fit.prepare (grammatical.fit.leaves fun a member spelled =>
    spelled.literal fun kind v read => ?_) grammatical.raw
  rw [view, Tree.flatten_map] at member
  obtain ⟨id, inside, rfl⟩ := List.mem_map.mp member
  exact literals id v (root ▸ (reaches_iff spans.links).mpr inside) kind read

theorem quantities_of_fit {u : Tree NodeId} (spans : e.Spans u) (root : u.top = e.root)
    (fit : (e.view u).Fit Label.IsShown) :
    ∀ id, e.Reaches e.root id → ∀ q ∈ (e.node id).value, q.IsFinite ∧ ShowsFinite q.text := by
  intro id reached q member
  have inside := (reaches_iff spans.links).mp (root ▸ reached)
  have label : (e.node id).label ∈ (e.view u).flatten := by
    rw [view, Tree.flatten_map]
    exact List.mem_map_of_mem inside
  obtain ⟨finite, reduced⟩ := (fit.labels _ label).value q member
  exact ⟨finite, showsFinite_of_sober (Quantity.rendered_part finite reduced.isNamed).word.sober⟩

theorem line_of_fit {u : Tree NodeId} (spans : e.Spans u) (root : u.top = e.root)
    (fit : (e.view u).Fit Label.IsShown) :
    Text.IsSober e.render.toList := by
  rw [render_eq ⟨u, spans, root, rfl⟩]
  exact (fit.worded fun _ shown => shown.word).rendered.sober

/-- An evaluation whose untested numbers stay finite shows no infinity and no NaN, holds none in the
end, and has a finite value, unless a letter `e` on the last line is taken for an exponent. -/
theorem evaluation_finite {text : String} (parsed : Expression.ofText text = .ok e)
    (literals : ∀ id v, e.Reaches e.root id → (e.node id).token.kind = .number →
      Decimal.read? (e.node id).token.text = some v → isFinite v)
    (stays : ∀ f, prepare e = (f, .ok ()) → f.StaysFinite) :
    (∀ line ∈ (evaluate e).steps, ShowsFinite line) ∧
      (∀ id, (evaluate e).formula.Reaches (evaluate e).formula.root id →
        ∀ q ∈ ((evaluate e).formula.node id).value, q.IsFinite ∧ ShowsFinite q.text) ∧
      ∀ v, (evaluate e).value = .ok v →
        (∀ side, solvedSide? ((evaluate e).steps.back?.getD "") = some side → 'e' ∉ side.toList) →
        isFinite v := by
  obtain ⟨x, built, displays, formed⟩ := displays_of_parsed parsed
  have fit := fit_of_parsed built displays literals
  obtain ⟨shown, ended⟩ := prepare_eq displays formed
  cases prepared : prepare e with
  | mk f outcome =>
    rw [prepared] at shown ended
    obtain ⟨t, spans, root, same⟩ := shown
    rw [← same] at fit
    cases outcome with
    | error error =>
      have traced : trace e = (.opening f, .error error) := by rw [trace, prepared]
      refine ⟨fun line member => ?_, ?_, fun v value => ?_⟩
      · obtain rfl : line = "Expression: " ++ f.render := by
          simpa [evaluate, traced, Trace.opening] using member
        exact showsFinite_opening (line_of_fit spans root fit)
      · have formula : (evaluate e).formula = f := by simp [evaluate, traced, Trace.opening]
        rw [formula]
        exact quantities_of_fit spans root fit
      · simp [evaluate, traced, bind, Except.bind, Except.mapError] at value
    | ok done =>
      cases done
      obtain ⟨t', spans', root', sound⟩ := stands_of_parsed parsed prepared
      obtain rfl := spans.links.unique spans'.links (root.trans root'.symm)
      have along {g : Formula} (passes : Passes f g) := passes.fit spans root sound fit (stays f prepared)
      refine ⟨fun line member => ?_, ?_, fun v value small => ?_⟩
      · rcases lines_of_trace prepared spans root line member with rfl | ⟨g, passes, rfl⟩
        · exact showsFinite_opening (line_of_fit spans root fit)
        · obtain ⟨u, stands, fit⟩ := along passes
          exact showsFinite_of_sober (line_of_fit stands.spans stands.root fit)
      · obtain ⟨u, stands, fit⟩ := along (trace_passes prepared spans root sound).1
        exact quantities_of_fit stands.spans stands.root fit
      · obtain ⟨passes, settled⟩ := trace_passes prepared spans root sound
        obtain ⟨u, stands, fit⟩ := along passes
        obtain ⟨last, steps, outcome⟩ := trace_eq displays formed
        have done : (trace e).2 = .ok () := by
          cases stop : (trace e).2 with
          | ok done => rfl
          | error error => simp [evaluate, stop, bind, Except.bind, Except.mapError] at value
        have line : (trace e).1.steps.back?.getD "" = ((trace e).1.formula.view u).text := by
          rw [← Array.getLast?_toList, steps, Tree.trace_last (outcome.symm.trans done),
            last.unique ⟨u, stands.spans, stands.root, rfl⟩]
          rfl
        have read : valueOfLine ((trace e).1.formula.view u).text = .ok v := by
          rw [evaluate] at value
          simp only [done, line] at value
          cases read : valueOfLine ((trace e).1.formula.view u).text with
          | ok w => simpa [read, bind, Except.bind, Except.mapError] using value
          | error error => simp [read, bind, Except.bind, Except.mapError] at value
        have still : ((trace e).1.formula.view u).isPending = false :=
          (isPending_view stands.spans.links).trans (stands.root ▸ settled done)
        exact value_of_tree fit stands.sound (stands.sound.idle still) (line ▸ small) read

def isTame (e : Formula) (id : NodeId) : Bool :=
  (outcome? e id).all fun q =>
    decide (IsTested e id) ||
      (decide q.IsFinite && (!(termKeyword? (e.node id)).isSome || q.value?.all isFinite))

def runsFinite : Nat → Formula → Bool
  | 0, e => !isPending (e.node e.root)
  | fuel + 1, e => !isPending (e.node e.root) ||
    match deepestPending e with
    | none => true
    | some id => isTame e id &&
      match reduce e id with
      | .ok f => runsFinite fuel f
      | .error _ => true

theorem staysFinite_of_runs {t : Tree NodeId} (spans : e.Spans t) (root : t.top = e.root)
    (sound : (e.view t).Sound) {fuel : Nat} (runs : runsFinite fuel e) : e.StaysFinite := by
  have along {f : Formula} (passes : Passes e f) : ∃ fuel, runsFinite fuel f := by
    induction passes with
    | prepared => exact ⟨fuel, runs⟩
    | @reduced f g id _ pending found reduced ih =>
      obtain ⟨fuel, runs⟩ := ih
      cases fuel with
      | zero => simp [runsFinite, pending] at runs
      | succ fuel =>
        simp only [runsFinite, pending, found, reduced, Bool.not_true, Bool.false_or,
          Bool.and_eq_true] at runs
        exact ⟨fuel, runs.2⟩
    | @simplified f g earlier settled simplified ih =>
      obtain ⟨u, stands⟩ := earlier.stands spans root sound
      exact ⟨0, by simp [runsFinite, simplifyRoot_settled stands.spans stands.root settled simplified]⟩
  intro f id q passes pending found outcome
  obtain ⟨fuel, runs⟩ := along passes
  cases fuel with
  | zero => simp [runsFinite, pending] at runs
  | succ fuel =>
    simp only [runsFinite, pending, found, Bool.not_true, Bool.false_or, Bool.and_eq_true, isTame,
      outcome, Option.all_some, Bool.or_eq_true, decide_eq_true_eq, Bool.not_eq_true',
      Option.isSome_eq_false_iff, Option.isNone_iff_eq_none] at runs
    refine runs.1.imp_right fun ⟨finite, amount⟩ => ⟨finite, fun called x value => ?_⟩
    rcases amount with none | all
    · simp [none] at called
    · simpa [value] using all

/-- An equation with a letter on both sides of a sum. -/
theorem evaluation_finite_equation : ∃ e : Formula, Expression.ofText "x+x=4" = .ok e ∧
    (∀ line ∈ (evaluate e).steps, ShowsFinite line) ∧
      (∀ id, (evaluate e).formula.Reaches (evaluate e).formula.root id →
        ∀ q ∈ ((evaluate e).formula.node id).value, q.IsFinite ∧ ShowsFinite q.text) ∧
      ∃ v, (evaluate e).value = .ok v ∧ isFinite v := by
  have tested : (Expression.ofText "x+x=4" : Except GrammarError Formula).toOption.any fun e =>
      ((List.range e.size).all fun id => (e.node id).token.kind != .number ||
        (Decimal.read? (e.node id).token.text).all isFinite) && runsFinite 16 (prepare e).1 &&
        (solvedSide? ((evaluate e).steps.back?.getD "")).all (fun side => !side.toList.contains 'e') &&
        (evaluate e).value.toOption.isSome := by decide +kernel
  cases parsed : (Expression.ofText "x+x=4" : Except GrammarError Formula) with
  | error error => simp [parsed, Except.toOption] at tested
  | ok e =>
    simp only [parsed, Except.toOption, Option.any_some, Bool.and_eq_true, List.all_eq_true,
      List.mem_range] at tested
    obtain ⟨⟨⟨literals, runs⟩, small⟩, value⟩ := tested
    obtain ⟨lines, quantities, finite⟩ := evaluation_finite parsed (fun id v reached kind read => by
      obtain ⟨x, -, ⟨t, spans, root, -⟩, -⟩ := displays_of_parsed parsed
      have inside := spans.inside id ((reaches_iff spans.links).mp (root ▸ reached))
      simpa [kind, read] using literals id inside) fun f prepared => by
      obtain ⟨t, spans, root, sound⟩ := stands_of_parsed parsed prepared
      exact staysFinite_of_runs spans root sound (by simpa [prepared] using runs)
    refine ⟨e, rfl, lines, quantities, ?_⟩
    cases read : (evaluate e).value with
    | error error => simp [read] at value
    | ok v => exact ⟨v, rfl, finite v read fun side solved => by simpa [solved] using small⟩

/-- No power of a polynomial is tested. -/
theorem evaluation_infinite : ∃ e : Formula, Expression.ofText "(x*100000000000)^29" = .ok e ∧
    ∃ line ∈ (evaluate e).steps, "inf".toList <:+: line.toList := by
  have shown : (Expression.ofText "(x*100000000000)^29" : Except GrammarError Formula).toOption.any fun e =>
      decide ("infx^29" ∈ (evaluate e).steps) := by decide +kernel
  cases parsed : (Expression.ofText "(x*100000000000)^29" : Except GrammarError Formula) with
  | error error => simp [parsed, Except.toOption] at shown
  | ok e =>
    have member : "infx^29" ∈ (evaluate e).steps := by simpa [parsed, Except.toOption] using shown
    exact ⟨e, rfl, "infx^29", member, [], ['x', '^', '2', '9'], rfl⟩

end Formula

end Stepwise
