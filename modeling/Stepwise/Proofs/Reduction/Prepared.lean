import Stepwise.Proofs.Reduction.Effort
import Stepwise.Proofs.Reduction.Prepare

/-! What a prepared tree and all its reducts have in common. To prepare such a tree once more does no
more than to take up its settled derivatives of equations again. -/
namespace Stepwise

theorem token_kind_ne (q : Quantity) :
    (Content.token q).kind ≠ .factorial ∧ (Content.token q).kind ≠ .letter := by
  cases q <;> simp [Content.token, Quantity.token, Token.inserted]

namespace Label

def HasTerm (a : Mark) : Prop := a.termKeyword?.isSome → a.value.any Formula.isTerm

def Outstanding (a : Mark) : Prop := a.isDerivative → a.reduced = false

def reopen (a : Mark) : Mark := if a.isDerivative then { a with reduced := false } else a

structure Legible (a : Mark) : Prop where
  factorial : a.token.kind ≠ .factorial
  letter : (Tree.leaf a).recognized? = none
  number : a.value = none → a.token.kind = .number → Decimal.read? a.token.text = none

theorem Legible.attachNumber {a : Mark} (legible : a.Legible) : a.attachNumber = a := by
  unfold Label.attachNumber
  split
  · next unread => rw [legible.number (Option.isNone_iff_eq_none.mp unread.1) unread.2]
  · rfl

theorem reopen_of_outstanding {a : Mark} (outstanding : a.Outstanding) : a.reopen = a := by
  unfold reopen
  split
  · next derivative =>
    have := outstanding derivative
    cases a
    simp_all
  · rfl

theorem legible_of_value {a : Mark} {q v : Quantity} (token : a.token = Content.token q)
    (value : a.value = some v) :
    a.Legible := by
  obtain ⟨factorial, letter⟩ := token_kind_ne q
  refine ⟨token ▸ factorial, ?_, by simp [value]⟩
  simp [Tree.recognized?, Tree.monomial?, Tree.isLeaf, token, letter]

theorem isDerivative_of_term {a : Mark} (term : a.termKeyword?.isSome) : a.isDerivative = false := by
  unfold termKeyword? at term
  unfold isDerivative
  cases call : a.call with
  | none => rfl
  | some keyword =>
    rw [call] at term
    by_cases kind : keyword.kind = .trig ∨ keyword.kind = .log
    · rcases kind with kind | kind <;> simp [kind]
    · simp [kind] at term

theorem hasTerm_of_no_call {a : Mark} (call : a.call = none) : a.HasTerm := fun term => by
  simp [termKeyword?, call] at term

theorem outstanding_of_no_call {a : Mark} (call : a.call = none) : a.Outstanding := fun derivative => by
  simp [isDerivative, call] at derivative

end Label

namespace Tree

def Isolated (left right : Tree Mark) : Prop :=
  ∀ a, (fork a left right).isolate = (fork a left right).settleEquation

structure Solved (a : Mark) (left right : Tree Mark) : Prop where
  equation : a.token.kind = .equals
  reduced : a.reduced = true
  deferred : a.deferred = false
  first : left.Idle
  second : right.Idle
  isolated : Isolated left right

def Prepared : Tree Mark → Prop
  | leaf a => a.Legible ∧ a.HasTerm ∧ a.Outstanding
  | group a inner => a.token.kind = .opening ∧ a.HasTerm ∧ a.Outstanding ∧ inner.Prepared
  | fork a left right =>
    a.token.kind.rank?.isSome ∧ a.HasTerm ∧ (a.Outstanding ∨ Solved a left right) ∧ left.Prepared ∧
      right.Prepared

theorem Prepared.formed {x : Tree Mark} (prepared : x.Prepared) : x.Formed := by
  induction x with
  | leaf a => trivial
  | group a inner ih => exact ⟨prepared.1, ih prepared.2.2.2⟩
  | fork a left right ihl ihr => exact ⟨prepared.1, ihl prepared.2.2.2.1, ihr prepared.2.2.2.2⟩

theorem isTerm_callTerm (x : Tree Mark) (keyword : String) (before : Option Quantity) :
    Formula.isTerm (x.callTerm keyword before) := by
  unfold callTerm
  cases TrigFunction.ofName? keyword <;> rfl

/-- Preparing a call gives it its term and takes up its derivative again. -/
theorem attachCall_top (x : Tree Mark) :
    x.attachCall.token = x.top.token ∧ (x.attachCall.value = none → x.top.value = none) ∧
      x.attachCall.HasTerm ∧ x.attachCall.Outstanding := by
  unfold attachCall
  cases term : x.top.termKeyword? with
  | some keyword =>
    have other : x.top.isDerivative = false := Label.isDerivative_of_term (by simp [term])
    simp only
    by_cases done : x.top.value.any Formula.isTerm
    · rw [if_pos done]
      exact ⟨rfl, id, fun _ => done, fun derivative => absurd derivative (by simp [other])⟩
    · rw [if_neg done]
      refine ⟨rfl, by simp, fun _ => by simp [isTerm_callTerm], fun derivative => ?_⟩
      exact absurd (show x.top.isDerivative from derivative) (by simp [other])
  | none =>
    simp only
    by_cases derivative : x.top.isDerivative
    · rw [if_pos derivative]
      refine ⟨rfl, id, fun some => ?_, fun _ => rfl⟩
      have same : ({ x.top with reduced := false } : Mark).termKeyword? = x.top.termKeyword? := rfl
      simp [same, term] at some
    · rw [if_neg derivative]
      exact ⟨rfl, id, fun some => by simp [term] at some, fun found => absurd found derivative⟩

/-- A call that has its term keeps it. -/
theorem attachCall_again {x : Tree Mark} (term : x.top.HasTerm) : x.attachCall = x.top.reopen := by
  unfold attachCall Label.reopen
  cases keyword : x.top.termKeyword? with
  | some name =>
    have here : x.top.termKeyword?.isSome := by simp [keyword]
    simp [term here, Label.isDerivative_of_term here]
  | none => rfl

def Leaves (p : Mark → Prop) : Tree Mark → Prop
  | leaf a => p a
  | group _ inner => inner.Leaves p
  | fork _ left right => left.Leaves p ∧ right.Leaves p

theorem foldFactorials_leaves {x : Tree Mark} (formed : x.Formed) (folded : x.foldFactorials.2 = .ok ()) :
    x.foldFactorials.1.Formed ∧ x.foldFactorials.1.Leaves fun a => a.token.kind ≠ .factorial := by
  induction x with
  | leaf a =>
    simp only [foldFactorials] at folded ⊢
    split at folded
    · next kind =>
      rw [if_pos kind]
      split at folded
      · exact ⟨trivial, (token_kind_ne _).1⟩
      · simp at folded
    · next kind =>
      rw [if_neg kind]
      exact ⟨trivial, kind⟩
  | group a inner ih =>
    obtain ⟨inside, leaves⟩ := ih formed.2 folded
    exact ⟨⟨formed.1, inside⟩, leaves⟩
  | fork a left right ihl ihr =>
    simp only [foldFactorials] at folded ⊢
    cases first : left.foldFactorials with
    | mk y ended =>
      rw [first] at folded ihl
      cases ended with
      | error error => simp at folded
      | ok done =>
        obtain ⟨l, leavesl⟩ := ihl formed.2.1 rfl
        obtain ⟨r, leavesr⟩ := ihr formed.2.2 folded
        exact ⟨⟨formed.1, l, r⟩, leavesl, leavesr⟩

theorem recognize_leaves {x : Tree Mark} (formed : x.Formed)
    (leaves : x.Leaves fun a => a.token.kind ≠ .factorial) :
    x.recognize.Formed ∧
      x.recognize.Leaves fun a => a.token.kind ≠ .factorial ∧ (leaf a).recognized? = none := by
  have term (a : Mark) (q : Quantity) :
      (a.collapse q).token.kind ≠ .factorial ∧ (leaf (a.collapse q)).recognized? = none :=
    have legible : (a.collapse q).Legible := Label.legible_of_value rfl rfl
    ⟨legible.factorial, legible.letter⟩
  induction x with
  | leaf a =>
    simp only [recognize]
    cases found : (leaf a).recognized? with
    | some q => exact ⟨trivial, term a q⟩
    | none => exact ⟨trivial, leaves, found⟩
  | group a inner ih =>
    obtain ⟨inside, leaves⟩ := ih formed.2 leaves
    exact ⟨⟨formed.1, inside⟩, leaves⟩
  | fork a left right ihl ihr =>
    simp only [recognize]
    cases found : (fork a left right).recognized? with
    | some q => exact ⟨trivial, term a q⟩
    | none =>
      obtain ⟨l, leavesl⟩ := ihl formed.2.1 leaves.1
      obtain ⟨r, leavesr⟩ := ihr formed.2.2 leaves.2
      exact ⟨⟨formed.1, l, r⟩, leavesl, leavesr⟩

theorem attachNumber_legible {a : Mark} (factorial : a.token.kind ≠ .factorial)
    (letter : (leaf a).recognized? = none) :
    a.attachNumber.Legible := by
  unfold Label.attachNumber
  split
  · split
    · exact Label.legible_of_value rfl rfl
    · next unread => exact ⟨factorial, letter, fun _ _ => unread⟩
  · next other => exact ⟨factorial, letter, fun value number => absurd ⟨by simp [value], number⟩ other⟩

/-- A call on a leaf does not change what is written there. -/
theorem attachCall_legible {a : Mark} (legible : a.Legible) : (leaf a).attachCall.Legible := by
  obtain ⟨token, value, _⟩ := attachCall_top (leaf a)
  simp only [top_leaf] at token value
  refine ⟨token ▸ legible.factorial, ?_, fun none number => ?_⟩
  · have letter := legible.letter
    simp only [recognized?, monomial?, top_leaf, token] at letter ⊢
    exact letter
  · rw [token] at number ⊢
    exact legible.number (value none) number

theorem attachQuantities_prepared {x : Tree Mark} (formed : x.Formed)
    (leaves : x.Leaves fun a => a.token.kind ≠ .factorial ∧ (leaf a).recognized? = none) :
    x.attachQuantities.Prepared := by
  induction x with
  | leaf a =>
    obtain ⟨_, _, term, outstanding⟩ := attachCall_top (leaf a.attachNumber)
    exact ⟨attachCall_legible (attachNumber_legible leaves.1 leaves.2), term, outstanding⟩
  | group a inner ih =>
    obtain ⟨token, _, term, outstanding⟩ := attachCall_top (group a inner)
    exact ⟨token ▸ formed.1, term, outstanding, ih formed.2 leaves⟩
  | fork a left right ihl ihr =>
    obtain ⟨token, _, term, outstanding⟩ := attachCall_top (fork a left right)
    exact ⟨token ▸ formed.1, term, .inl outstanding, ihl formed.2.1 leaves.1, ihr formed.2.2 leaves.2⟩

theorem prepare_prepared {x y : Tree Mark} (formed : x.Formed)
    (prepared : x.prepare = (y, .ok ())) : y.Prepared := by
  unfold prepare at prepared
  split at prepared
  · next z folded =>
    obtain ⟨rfl, _⟩ := Prod.mk.inj prepared
    obtain ⟨formed, leaves⟩ := foldFactorials_leaves formed (by rw [folded])
    obtain ⟨formed, leaves⟩ := recognize_leaves formed leaves
    rw [folded] at formed leaves
    exact attachQuantities_prepared formed leaves
  · next failed => exact absurd prepared (failed y)

theorem prepared_value (q : Quantity) : (value q).Prepared :=
  ⟨Label.legible_of_value rfl rfl, Label.hasTerm_of_no_call rfl, Label.outstanding_of_no_call rfl⟩

theorem prepared_operator {kind : Token.Kind} (text : String) {left right : Tree Mark}
    (rank : kind.rank?.isSome) (l : left.Prepared) (r : right.Prepared) :
    (fork { token := .inserted kind text } left right).Prepared :=
  ⟨rank, Label.hasTerm_of_no_call rfl, .inl (Label.outstanding_of_no_call rfl), l, r⟩

theorem prepared_collapse {a : Mark} (call : a.call = none) (q : Quantity) : (leaf (a.collapse q)).Prepared :=
  ⟨Label.legible_of_value rfl rfl, Label.hasTerm_of_no_call call, Label.outstanding_of_no_call call⟩

theorem prepared_settled (a : Mark) (q : Quantity) : (settled a q).Prepared := by
  unfold settled
  cases term : a.termKeyword? with
  | some keyword =>
    refine ⟨Label.legible_of_value (q := q) rfl rfl, fun _ => by simp [isTerm_callTerm], fun derivative => ?_⟩
    have other := Label.isDerivative_of_term (a := a) (by simp [term])
    exact absurd (show a.isDerivative from derivative) (by simp [other])
  | none =>
    have none : (a.collapse q).HasTerm := fun found => by
      have same : (a.collapse q).termKeyword? = a.termKeyword? := rfl
      simp [same, term] at found
    by_cases derivative : a.isDerivative
    · simp only [derivative, if_true]
      exact ⟨Label.legible_of_value (q := q) rfl rfl, none, fun _ => rfl⟩
    · simp only [derivative]
      exact ⟨Label.legible_of_value (q := q) rfl rfl, none, fun found => absurd found derivative⟩

/-- Relabelling the root keeps the tree prepared when the call stays as it is. -/
theorem Prepared.defer {x : Tree Mark} (prepared : x.Prepared) (pending : x.isPending) :
    x.defer.Prepared := by
  have unreduced : x.top.reduced = false := by
    simp only [isPending, Label.isSettled, Bool.and_eq_true, Bool.not_eq_true',
      Bool.or_eq_false_iff] at pending
    exact pending.1.1
  cases x with
  | leaf a =>
    exact ⟨⟨prepared.1.factorial, prepared.1.letter, prepared.1.number⟩, prepared.2.1,
      fun _ => unreduced⟩
  | group a inner => exact ⟨prepared.1, prepared.2.1, fun _ => unreduced, prepared.2.2.2⟩
  | fork a left right => exact ⟨prepared.1, prepared.2.1, .inl fun _ => unreduced, prepared.2.2.2⟩

theorem Prepared.differentiate {x : Tree Mark} (prepared : x.Prepared) (pending : x.isPending) :
    x.differentiate.Prepared := by
  unfold Tree.differentiate
  split
  · exact prepared_collapse rfl _
  · exact prepared.defer pending

/-- An equation is moved, or it settles whatever is written on it. The new sides keep what values and
inserted operators keep. -/
theorem isolate_cases {P : Tree Mark → Prop} (number : ∀ q, P (value q))
    (operator : ∀ kind text l r, kind.rank?.isSome → P l → P r →
      P (fork { token := .inserted kind text } l r)) {left right : Tree Mark} (l : P left)
    (r : P right) :
    Isolated left right ∨
      ∃ first second : Tree Mark, P first ∧ P second ∧
      ∀ a, (fork a left right).isolate = fork a first second := by
  have kind (p : Polynomial) :
      (offsetMove p).1 = .inserted .plus "+" ∨ (offsetMove p).1 = .inserted .minus "-" := by
    unfold offsetMove
    split
    · exact .inl rfl
    · exact .inr rfl
  by_cases numeric : right.top.value.any Quantity.isConstant
  · cases linear : left.linear? with
    | none => exact .inl fun a => by simp [isolate, numeric, linear]
    | some p =>
      by_cases offset : p.coefficient 0 != 0.0
      · refine .inr ⟨value (.polynomial (.monomial (p.coefficient 1) 1 p.letter)),
          fork { token := (offsetMove p).1 } right (value (.constant (offsetMove p).2)), number _, ?_,
          fun a => by simp [isolate, numeric, linear, offset, moveOffset]⟩
        rcases kind p with h | h
        · rw [h]
          exact operator .plus "+" _ _ rfl r (number _)
        · rw [h]
          exact operator .minus "-" _ _ rfl r (number _)
      · by_cases slope : p.coefficient 1 != 1.0
        · exact .inr ⟨value (.polynomial (.monomial 1.0 1 p.letter)),
            fork { token := .inserted .divide "/" } right (value (.constant (p.coefficient 1))), number _,
            operator .divide "/" _ _ rfl r (number _),
            fun a => by simp [isolate, numeric, linear, offset, slope, divideSlope]⟩
        · exact .inl fun a => by simp [isolate, numeric, linear, offset, slope]
  · exact .inr ⟨fork { token := .inserted .minus "-" } left right, value (.constant 0.0),
      operator .minus "-" _ _ rfl l r, number _, fun a => by simp [isolate, numeric, moveOver]⟩

theorem Prepared.isolate {x : Tree Mark} (prepared : x.Prepared) (rested : x.Rested) (pending : x.isPending)
    (equation : x.top.token.kind = .equals) (inner : x.isLeaf = false) : x.isolate.Prepared := by
  cases x with
  | leaf a => simp [isLeaf] at inner
  | group a inner =>
    have opening : a.token.kind = .opening := prepared.1
    rw [top_group, opening] at equation
    simp at equation
  | fork a left right =>
    obtain ⟨rank, term, _, l, r⟩ := prepared
    rcases isolate_cases prepared_value (fun _ text _ _ rank => prepared_operator text rank) l r
      with isolated | ⟨first, second, prepared, prepared', moved⟩
    · rw [isolated a]
      exact ⟨rank, term, .inr ⟨equation, rfl, rfl, rested.1, rested.2, isolated⟩, l, r⟩
    · rw [moved a]
      refine ⟨rank, term, .inl fun _ => ?_, prepared, prepared'⟩
      simp only [isPending, Label.isSettled, Bool.and_eq_true, Bool.not_eq_true',
        Bool.or_eq_false_iff] at pending
      exact pending.1.1

theorem Prepared.reduceTop {x y : Tree Mark} (prepared : x.Prepared) (rested : x.Rested)
    (pending : x.isPending) (reduced : x.reduceTop = .ok y) : y.Prepared := by
  unfold Tree.reduceTop at reduced
  split at reduced
  · obtain rfl := Except.ok.inj reduced
    exact prepared.differentiate pending
  · next inner =>
    split at reduced
    · next equation =>
      obtain rfl := Except.ok.inj reduced
      exact prepared.isolate rested pending equation (by simpa using inner)
    · split at reduced
      · obtain rfl := Except.ok.inj reduced
        exact prepared_settled _ _
      · obtain rfl := Except.ok.inj reduced
        exact prepared.defer pending
      · simp at reduced

theorem Prepared.step {x y : Tree Mark} (prepared : x.Prepared) (stepped : x.step? = some (.ok y)) :
    y.Prepared := by
  induction x generalizing y with
  | leaf a =>
    obtain ⟨pending, reduced⟩ := step_leaf_cases stepped
    exact prepared.reduceTop trivial pending reduced.symm
  | group a inner ih =>
    rcases step_group_cases stepped with ⟨r, here, result⟩ | ⟨idle, pending, reduced⟩
    · obtain ⟨z, rfl, rfl⟩ := of_map_ok result.symm
      exact ⟨prepared.1, prepared.2.1, prepared.2.2.1, ih prepared.2.2.2 here⟩
    · exact prepared.reduceTop idle pending reduced.symm
  | fork a left right ihl ihr =>
    have ⟨rank, term, outstanding, l, r⟩ := prepared
    rcases step_fork_cases
      stepped with ⟨r', here, result⟩ | ⟨r', here, result⟩ | ⟨first, second, pending, reduced⟩
    · obtain ⟨z, rfl, rfl⟩ := of_map_ok result.symm
      refine ⟨rank, term, .inl (outstanding.resolve_right fun solved => ?_), ihl l here, r⟩
      simp [(step_none_iff left).mpr solved.first] at here
    · obtain ⟨z, rfl, rfl⟩ := of_map_ok result.symm
      refine ⟨rank, term, .inl (outstanding.resolve_right fun solved => ?_), l, ihr r here⟩
      simp [(step_none_iff right).mpr solved.second] at here
    · exact prepared.reduceTop ⟨first, second⟩ pending reduced.symm

theorem Prepared.foldFactorials {x : Tree Mark} (prepared : x.Prepared) : x.foldFactorials = (x, .ok ()) := by
  induction x with
  | leaf a => simp [Tree.foldFactorials, prepared.1.factorial]
  | group a inner ih => simp [Tree.foldFactorials, ih prepared.2.2.2]
  | fork a left right ihl ihr => simp [Tree.foldFactorials, ihl prepared.2.2.2.1, ihr prepared.2.2.2.2]

/-- A prepared leaf is not a letter, so no product over it is a monomial. -/
theorem Prepared.letterLeaf {x : Tree Mark} (prepared : x.Prepared) : x.letterLeaf? = none := by
  cases x with
  | leaf a =>
    have letter := prepared.1.letter
    simp only [recognized?, monomial?, isLeaf, top_leaf, true_and] at letter
    simp only [letterLeaf?]
    split at letter
    · next kind =>
      split
      · exact Option.map_eq_none_iff.mp letter
      · rfl
    · next kind => simp [kind]
  | group a inner => rfl
  | fork a left right => rfl

theorem Prepared.recognized {x : Tree Mark} (prepared : x.Prepared) : x.recognized? = none := by
  cases x with
  | leaf a => exact prepared.1.letter
  | group a inner => simp [recognized?, monomial?, isLeaf]
  | fork a left right =>
    have none : (fork a left right).monomial? = none := by
      cases right with
      | fork b base exponent =>
        have letter : base.letterLeaf? = none := Prepared.letterLeaf prepared.2.2.2.2.2.2.2.1
        simp [monomial?, letter]
      | leaf b => rfl
      | group b inner => rfl
    simp [recognized?, none, isLeaf]

theorem Prepared.recognize {x : Tree Mark} (prepared : x.Prepared) : x.recognize = x := by
  induction x with
  | leaf a => simp [Tree.recognize, prepared.recognized]
  | group a inner ih => simp [Tree.recognize, ih prepared.2.2.2]
  | fork a left right ihl ihr =>
    simp [Tree.recognize, prepared.recognized, ihl prepared.2.2.2.1, ihr prepared.2.2.2.2]

theorem Prepared.attachQuantities {x : Tree Mark} (prepared : x.Prepared) :
    x.attachQuantities = x.map Label.reopen := by
  induction x with
  | leaf a =>
    rw [Tree.attachQuantities, prepared.1.attachNumber, attachCall_again (x := leaf a) prepared.2.1]
    rfl
  | group a inner ih =>
    rw [Tree.attachQuantities, attachCall_again (x := group a inner) prepared.2.1, ih prepared.2.2.2]
    rfl
  | fork a left right ihl ihr =>
    rw [Tree.attachQuantities, attachCall_again (x := fork a left right) prepared.2.1, ihl prepared.2.2.2.1,
      ihr prepared.2.2.2.2]
    rfl

/-- Preparing once more takes up the settled derivatives again. -/
theorem Prepared.again {x : Tree Mark} (prepared : x.Prepared) :
    x.prepare = (x.map Label.reopen, .ok ()) := by
  simp only [prepare, prepared.foldFactorials]
  rw [prepared.recognize, prepared.attachQuantities]

end Tree

end Stepwise
