import Stepwise.Proofs.Reduction.Reckoned

/-! Reductions that do not show. A tree lags behind another one when some of its reductions are made
there already, all of which leave the text as it is. Main statement: both runs show the same lines.
The nodes of the tree ahead are nodes of the tree behind and at the same depth, so what shows is
reduced in the same order; what does not show comes in between. -/
namespace Stepwise

open Expression (Alike)
open Quantity (Same)

namespace Label.Operates

variable {a b : Mark} {operation : Operation} {left left' right right' : Tree Mark}

/-- Operators of one kind are written alike over operands that are. -/
theorem rendered_congr (first : a.Operates operation) (second : b.Operates operation)
    (unary : b.unary = a.unary) (operandl : left'.rendered = left.rendered)
    (operandr : right'.rendered = right.rendered) :
    (Tree.fork b left' right').rendered = (Tree.fork a left right).rendered := by
  have rank := (Tree.rank_of_operation first.known)
  cases sign : a.unary with
  | true =>
    rw [Tree.rendered_sign first.call sign, Tree.rendered_sign second.call (unary.trans sign),
      second.text_eq first, operandr]
  | false =>
    have rank' := Tree.rank_of_operation second.known
    rw [Tree.rendered_fork first.call sign (Tree.not_unit first.written left) rank.1 rank.2,
      Tree.rendered_fork second.call (unary.trans sign) (Tree.not_unit second.written left') rank'.1
      rank'.2, operandl, operandr]
    unfold Expression.infixed
    rw [second.text_eq first, second.kind_eq first]

end Label.Operates

namespace Tree

variable {x y z left right : Tree Mark} {a b : Mark} {operation : Operation}

/-- The powers that the operation forms do not look at the signs of zeros. -/
def SignBlind (operation : Operation) : Prop := operation = .power → ∀ x y, Decimal.PowIgnoresSigns x y

/-- The second tree is the first one with some reductions made that do not show. Numbers may differ
in the signs of zeros. -/
inductive Lags : Tree Mark → Tree Mark → Prop
  | number {a b : Mark} {p q : Quantity} (call : a.call = none) (call' : b.call = none)
      (value : a.value = some p)
    (value' : b.value = some q) (settled : p.IsSettled) (same : Same p q) : Lags (leaf a) (leaf b)
  | operator {a b : Mark} {operation : Operation} {left left' right right' : Tree Mark}
      (operates : a.Operates operation)
    (operates' : b.Operates operation) (unary : b.unary = a.unary) (blind : SignBlind operation)
    (first : Lags left left')
    (second : Lags right right') : Lags (fork a left right) (fork b left' right')
  | reduced {a b c d : Mark} {operation : Operation} {left right : Tree Mark} {p q v : Quantity}
      (operates : a.Operates operation)
    (blind : SignBlind operation) (first : Lags left (leaf b)) (second : Lags right (leaf c))
    (value : b.value = some p)
    (value' : c.value = some q) (combined : p.apply operation q = .ok (some v))
    (call : d.call = none) (held : d.value = some v)
    (hidden : (fork a (leaf b) (leaf c)).rendered = v.rendered) : Lags (fork a left right) (leaf d)

theorem rendered_value {v : Quantity} (call : a.call = none) (value : a.value = some v) :
    (leaf a).rendered = v.rendered := by
  simp only [rendered, leafRendered, call, value]
  rfl

theorem Lags.rendered (lags : x.Lags z) : x.rendered = z.rendered := by
  induction lags with
  | number call call' value value' settled same =>
    rw [rendered_value call value, rendered_value call' value', same.rendered]
  | operator operates operates' unary blind first second ihl ihr =>
    exact (operates.rendered_congr operates' unary ihl.symm ihr.symm).symm
  | reduced operates blind first second value value' combined call held hidden ihl ihr =>
    rw [rendered_value call held, ← hidden]
    exact operates.rendered_congr operates rfl ihl ihr

theorem Lags.text (lags : x.Lags z) : x.text = z.text := congrArg Rendered.text lags.rendered

theorem deeper_trans {l r r' : Option Nat} (first : deeper l r) (second : deeper r' r = false) :
    deeper l r' := by
  cases l <;> cases r <;> cases r' <;> simp_all [deeper]
  omega

theorem not_deeper_trans {l l' r : Option Nat} (first : deeper l' l = false)
    (second : ¬ deeper l r) : ¬ deeper l' r := by
  cases l <;> cases r <;> cases l' <;> simp_all [deeper]
  omega

/-- How deep the deepest pending node is below an operator. -/
theorem pendingDepth_operates (operates : a.Operates operation) (left right : Tree Mark) :
    (fork a left right).pendingDepth =
    if deeper left.pendingDepth right.pendingDepth then left.pendingDepth.map (· + 1)
      else some (right.pendingDepth.elim 0 (· + 1)) := by
  rw [pendingDepth]
  split
  · rfl
  · cases right.pendingDepth with
    | none => simp [pending_fork operates.isSettled]
    | some depth => rfl

/-- The nodes of the tree ahead are nodes of the tree behind. -/
theorem Lags.not_deeper (lags : x.Lags z) : deeper z.pendingDepth x.pendingDepth = false := by
  induction lags with
  | number call call' =>
    rw [show (leaf _).pendingDepth = none from idle_leaf.mpr (Reckoned.idle_leaf_of_call call')]
    rfl
  | @operator a b operation left left' right right' operates operates' unary blind first second ihl ihr =>
    rw [pendingDepth_operates operates, pendingDepth_operates operates']
    generalize left.pendingDepth = l, right.pendingDepth = r, left'.pendingDepth = l',
      right'.pendingDepth = r' at ihl ihr
    cases l <;> cases r <;> cases l' <;> cases r' <;> simp_all [deeper] <;> grind
  | reduced operates blind first second value value' combined call =>
    rw [show (leaf _).pendingDepth = none from idle_leaf.mpr (Reckoned.idle_leaf_of_call call)]
    rfl

theorem step_number (call : a.call = none) : (leaf a).step? = none :=
  (step_none_iff _).mpr (idle_leaf.mpr (Reckoned.idle_leaf_of_call call))

/-- Only numbers are at rest. -/
theorem Lags.of_idle (lags : x.Lags z) (idle : x.Idle) :
    ∃ a b p q, x = leaf a ∧ z = leaf b ∧ a.call = none ∧ b.call = none ∧
    a.value = some p ∧ b.value = some q ∧ p.IsSettled ∧ Same p q := by
  cases lags with
  | number call call' value value' settled same =>
    exact ⟨_, _, _, _, rfl, rfl, call, call', value, value', settled, same⟩
  | operator operates | reduced operates =>
    exact absurd idle (not_idle_of_pending (pending_fork operates.isSettled _ _))

/-- Of a number that stands ahead only the value counts. -/
theorem Lags.of_value {q : Quantity} (lags : x.Lags (leaf a)) (value : a.value = some q)
    (call : b.call = none) (value' : b.value = some q) : x.Lags (leaf b) := by
  cases lags with
  | number callx _ valuex here settled same =>
    obtain rfl := Option.some.inj (value.symm.trans here)
    exact .number callx call valuex value' settled same
  | reduced operates blind first second valuel valuer combined _ held hidden =>
    obtain rfl := Option.some.inj (value.symm.trans held)
    exact .reduced operates blind first second valuel valuer combined call value' hidden

/-- Two operators on the same numbers give the same number, or fail alike. -/
theorem reduceTop_same {l r l' r' : Mark} {p p' q q' : Quantity} (operates : a.Operates operation)
    (operates' : b.Operates operation) (blind : SignBlind operation) (settled : p.IsSettled)
    (settled' : q.IsSettled) (left : Same p p') (right : Same q q') (valuel : l.value = some p)
    (valuer : r.value = some q) (valuel' : l'.value = some p') (valuer' : r'.value = some q') :
    Alike Lags (fork a (leaf l) (leaf r)).reduceTop (fork b (leaf l') (leaf r')).reduceTop := by
  have same := Quantity.apply_same settled settled' left right fun power x y _ _ => blind power x y
  have settles := Quantity.apply_settles operation (Reckoned.isNumber_of_settled settled).value
    (Reckoned.isNumber_of_settled settled').value
  rw [reduceTop_values operates valuel valuer, reduceTop_values operates' valuel' valuer']
  generalize p.apply operation q = first, p'.apply operation q' = second at same settles ⊢
  cases first with
  | error error =>
    cases second with
    | error other => exact same
    | ok result => cases same
  | ok result =>
    obtain ⟨v, rfl, settled⟩ := settles
    cases second with
    | error error => cases same
    | ok result' =>
      cases (show Option.Rel Same (some v) result' from same) with
      | some equal => exact Lags.number operates.call operates'.call rfl rfl settled equal

/-- A reduction of the tree behind either has been made in the tree ahead, or it is the next one there too. -/
theorem Lags.step (lags : x.Lags z) {result : Except ComputationError (Tree Mark)}
    (stepped : x.step? = some result) :
    (∃ y, result = .ok y ∧ y.Lags z) ∨
      (z.pendingDepth = x.pendingDepth ∧ ∃ result', z.step? = some result' ∧ Alike Lags result result') := by
  induction lags generalizing result with
  | number call =>
    rw [step_number call] at stepped
    cases stepped
  | @operator a b operation left left' right right' operates operates' unary blind first second ihl ihr =>
    have behindl := first.not_deeper
    have behindr := second.not_deeper
    rw [pendingDepth_operates operates, pendingDepth_operates operates', step?]
    rw [step?] at stepped
    by_cases onleft : deeper left.pendingDepth right.pendingDepth
    · rw [if_pos onleft] at stepped ⊢
      obtain ⟨r, here, rfl⟩ := Option.map_eq_some_iff.mp stepped
      rcases ihl here with ⟨y, rfl, lags⟩ | ⟨depth, r', there, alike⟩
      · exact .inl ⟨_, rfl, .operator operates operates' unary blind lags second⟩
      · have onleft' : deeper left'.pendingDepth right'.pendingDepth := by
          rw [depth]
          exact deeper_trans onleft behindr
        rw [if_pos onleft', if_pos onleft', depth, there]
        exact .inr ⟨rfl, _, rfl, alike.map fun _ _ lags =>
          .operator operates operates' unary blind lags second⟩
    · rw [if_neg onleft] at stepped ⊢
      cases here : right.step? with
      | some r =>
        rw [here] at stepped
        obtain rfl := Option.some.inj stepped
        rcases ihr here with ⟨y, rfl, lags⟩ | ⟨depth, r', there, alike⟩
        · exact .inl ⟨_, rfl, .operator operates operates' unary blind first lags⟩
        · have onright' : ¬ deeper left'.pendingDepth right'.pendingDepth := by
            rw [depth]
            exact not_deeper_trans behindl onleft
          rw [if_neg onright', if_neg onright', depth, there]
          exact .inr ⟨rfl, _, rfl, alike.map fun _ _ lags =>
            .operator operates operates' unary blind first lags⟩
      | none =>
        -- both operands are numbers
        have idle := (step_none_iff right).mp here
        obtain ⟨r, r', q, q', rfl, rfl, callr, callr', valuer, valuer', settledr, samer⟩ :=
          second.of_idle idle
        obtain ⟨l, l', p, p', rfl, rfl, calll, calll', valuel, valuel', settledl, samel⟩ :=
          first.of_idle (idle_of_not_deeper onleft idle)
        have rest : ∀ {c : Mark}, c.call = none → (leaf c).pendingDepth = none :=
          fun call => idle_leaf.mpr (Reckoned.idle_leaf_of_call call)
        have alike := reduceTop_same operates operates' blind settledl settledr samel samer valuel
          valuer valuel' valuer'
        simp only [here, pending_fork operates.isSettled, if_true, Option.some.injEq] at stepped
        subst stepped
        simp only [rest calll', rest callr', rest callr, deeper, step_number callr',
          pending_fork operates'.isSettled, Bool.false_eq_true, if_false, if_true]
        exact .inr ⟨trivial, _, rfl, alike⟩
  | @reduced a b c d operation left right p q v operates blind first second value value' combined
      call held hidden ihl ihr =>
    refine .inl ?_
    rcases step_fork_cases stepped with ⟨r, here, rfl⟩ | ⟨r, here, rfl⟩ | ⟨idlel, idler, pending, rfl⟩
    · rcases ihl here with ⟨y, rfl, lags⟩ | ⟨depth, r', there, -⟩
      · exact ⟨_, rfl, .reduced operates blind lags second value value' combined call held hidden⟩
      · cases first with
        | number _ call' => cases (step_number call').symm.trans there
        | reduced _ _ _ _ _ _ _ call' => cases (step_number call').symm.trans there
    · rcases ihr here with ⟨y, rfl, lags⟩ | ⟨depth, r', there, -⟩
      · exact ⟨_, rfl, .reduced operates blind first lags value value' combined call held hidden⟩
      · cases second with
        | number _ call' => cases (step_number call').symm.trans there
        | reduced _ _ _ _ _ _ _ call' => cases (step_number call').symm.trans there
    · obtain ⟨l, l', p', p'', rfl, same, calll, calll', valuel, valuel', settledl, samel⟩ :=
        first.of_idle idlel
      obtain ⟨r, r', q', q'', rfl, same', callr, callr', valuer, valuer', settledr, samer⟩ :=
        second.of_idle idler
      cases same
      cases same'
      obtain rfl := Option.some.inj (value.symm.trans valuel')
      obtain rfl := Option.some.inj (value'.symm.trans valuer')
      have alike := reduceTop_same operates operates blind settledl settledr samel samer valuel
        valuer value value'
      rw [reduceTop_values operates value value', combined] at alike
      cases reduced : (fork a (leaf l) (leaf r)).reduceTop with
      | error error => simp [reduced, Alike] at alike
      | ok y =>
        rw [reduced] at alike
        exact ⟨y, rfl, Lags.of_value alike rfl call held⟩

theorem Lags.next_eq (lags : x.Lags z) : x.next? = x.step? ∧ z.next? = z.step? := by
  have leaf {a : Mark} (call : a.call = none) : (leaf a).next? = (leaf a).step? := by
    rw [next?, Reckoned.idle_leaf_of_call call, step_number call]
    rfl
  cases lags with
  | number call call' => exact ⟨leaf call, leaf call'⟩
  | operator operates operates' =>
    simp only [next?, pending_fork operates.isSettled, pending_fork operates'.isSettled, if_true, and_self]
  | reduced operates _ _ _ _ _ _ call =>
    exact ⟨by simp only [next?, pending_fork operates.isSettled, if_true], leaf call⟩

/-- A tree that lags behind shows the same lines. -/
theorem Lags.lines (lags : x.Lags z) :
    fresh x.text (x.run.1.map Tree.text) = fresh z.text (z.run.1.map Tree.text) := by
  induction effort : x.effort using Nat.strong_induction_on generalizing x z with
  | _ n ih =>
    obtain ⟨nextx, nextz⟩ := lags.next_eq
    cases goes : x.next? with
    | none =>
      obtain ⟨a, b, -, -, rfl, rfl, call, call', -⟩ :=
        lags.of_idle ((step_none_iff x).mp (nextx.symm.trans goes))
      rw [run_done goes, run_done (nextz.trans (step_number call'))]
      rfl
    | some result =>
      rcases lags.step (nextx.symm.trans goes) with ⟨y, rfl, later⟩ | ⟨-, result', there, alike⟩
      · have less := effort ▸ effort_next goes
        have same : y.text = x.text := later.text.trans lags.text.symm
        rw [run_goes goes, List.map_cons, fresh, if_pos same, ← same, ih _ less later rfl]
      · rw [← nextz] at there
        cases result with
        | error error =>
          cases result' with
          | error other => rw [run_fails goes, run_fails there]; rfl
          | ok y' => cases alike
        | ok y =>
          cases result' with
          | error other => cases alike
          | ok y' =>
            have later : y.Lags y' := alike
            have less := effort ▸ effort_next goes
            have rest := ih _ less later rfl
            rw [later.text] at rest
            rw [run_goes goes, run_goes there, List.map_cons, List.map_cons, fresh, fresh,
              lags.text, later.text]
            split
            · next silent => rw [← silent, rest]
            · rw [rest]

end Tree

end Stepwise
