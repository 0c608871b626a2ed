import Stepwise.Proofs.Quantity.Compact
import Stepwise.Proofs.Reduction.Again
import Stepwise.Proofs.Reduction.Fit
import Stepwise.Proofs.Tree.Expansion

/-! Trees whose leaves hold compact quantities, and whose inner nodes hold the terms of their calls
if anything. Main statement: what an evaluation leaves of a text is such a tree. Nothing here asks
for finite numbers. -/
namespace Stepwise

namespace Label

def IsMarked (a : Mark) : Prop := ∀ keyword ∈ a.call, keyword.kind.IsMark ∧ keyword.Spelled

structure HoldsCompact (a : Mark) : Prop where
  marked : a.IsMarked
  value : ∀ q ∈ a.value, q.IsCompact

structure HoldsTerm (a : Mark) : Prop where
  marked : a.IsMarked
  term : ∀ q ∈ a.value, Formula.isTerm q ∧ q.isConstant = false
  unary : a.unary → a.token.kind ≠ .equals

structure IsDraft (a : Mark) : Prop where
  undeferred : a.deferred = false
  letter : a.token.kind = .letter → a.token.Spelled

def IsPutOff (a : Mark) : Prop := a.deferred → a.value.bind Quantity.derivative? = none

variable {a : Mark} {q : Quantity}

theorem HoldsCompact.collapse (marked : a.IsMarked) (compact : q.IsCompact) : (a.collapse q).HoldsCompact :=
  ⟨marked, fun _ same => Option.some.inj same ▸ compact⟩

theorem isDraft_collapse (a : Mark) (q : Quantity) : (a.collapse q).IsDraft :=
  ⟨rfl, fun letter => absurd letter (token_kind_ne q).2⟩

theorem isPutOff_of_open (undeferred : a.deferred = false) : a.IsPutOff :=
  fun put => by simp [undeferred] at put

end Label

theorem Quantity.compact_of_term {q : Quantity} (term : Formula.isTerm q) : q.IsCompact := by
  cases q with
  | trig t | log t => trivial
  | _ => cases term

/-- A term of degree one in a letter of a text. -/
theorem Quantity.compact_monomial {letter : Char} {x : Float} (low : 'a' ≤ letter) (high : letter ≤ 'z')
    (nonzero : (x == 0.0) = false) : (Quantity.polynomial (.monomial x 1 letter)).IsCompact := by
  refine ⟨Polynomial.monomial_named low high x 1, ?_⟩
  rw [Polynomial.degree_monomial nonzero]
  exact Nat.one_ne_zero

namespace Tree

/-- Compact quantities on the leaves, which have the property `p`, and terms above them. -/
def Compact (p : Mark → Prop) : Tree Mark → Prop
  | leaf a => a.HoldsCompact ∧ p a
  | group a inner => a.HoldsTerm ∧ inner.Compact p
  | fork a left right => a.HoldsTerm ∧ left.Compact p ∧ right.Compact p

variable {p r : Mark → Prop} {x y : Tree Mark} {a : Mark} {q : Quantity}

theorem Compact.mono (compact : x.Compact p) (weaker : ∀ a, p a → r a) : x.Compact r := by
  induction x with
  | leaf a => exact ⟨compact.1, weaker a compact.2⟩
  | group a inner ih => exact ⟨compact.1, ih compact.2⟩
  | fork a left right ihl ihr => exact ⟨compact.1, ihl compact.2.1, ihr compact.2.2⟩

theorem Compact.marked (compact : x.Compact p) : x.top.IsMarked := by
  cases x with
  | leaf a => exact compact.1.marked
  | group a inner => exact compact.1.marked
  | fork a left right => exact compact.1.marked

theorem Compact.value (compact : x.Compact p) : ∀ q ∈ x.top.value, q.IsCompact := by
  cases x with
  | leaf a => exact compact.1.value
  | group a inner => exact fun q member => Quantity.compact_of_term (compact.1.term q member).1
  | fork a left right => exact fun q member => Quantity.compact_of_term (compact.1.term q member).1

/-- What is no term around an expression is held by a leaf. -/
theorem Compact.leaf_of_other (compact : x.Compact p) (value : x.top.value = some q)
    (other : Formula.isTerm q = false ∨ q.isConstant) : ∃ a, x = leaf a := by
  have impossible (term : Formula.isTerm q ∧ q.isConstant = false) : False := by
    rcases other with other | other
    · exact absurd term.1 (by simp [other])
    · exact absurd other (by simp [term.2])
  cases x with
  | leaf a => exact ⟨a, rfl⟩
  | group a inner => exact (impossible (compact.1.term q value)).elim
  | fork a left right => exact (impossible (compact.1.term q value)).elim

/-- On an inner node, the marks of what is reduced may change. -/
theorem Compact.relabel {f : Mark → Mark} (compact : x.Compact p) (inner : x.isLeaf = false)
    (kept : ∀ a, (f a).call = a.call ∧ (f a).value = a.value ∧ (f a).unary = a.unary ∧
      (f a).token = a.token) :
    (x.mapTop f).Compact p := by
  have label {a : Mark} (holds : a.HoldsTerm) : (f a).HoldsTerm := by
    obtain ⟨call, value, unary, token⟩ := kept a
    exact ⟨fun keyword member => holds.marked keyword (call ▸ member),
      fun q member => holds.term q (value ▸ member), fun sign => token ▸ holds.unary (unary ▸ sign)⟩
  cases x with
  | leaf a => cases inner
  | group a inside => exact ⟨label compact.1, compact.2⟩
  | fork a left right => exact ⟨label compact.1, compact.2⟩

/-! ### Preparation -/

/-- A text denotes a tree without quantities. -/
theorem Grammatical.compact (grammatical : x.Grammatical) : x.Compact Label.IsDraft := by
  have fit := grammatical.fit
  have fresh := grammatical.fresh
  have inner {a : Mark} (fresh : a.Fresh) (call : a.IsMarked) : a.HoldsTerm := by
    refine ⟨call, by simp [fresh.value], fun sign equals => ?_⟩
    rcases fresh.unary sign with kind | kind <;> simp [kind] at equals
  clear grammatical
  induction x with
  | leaf a =>
    have draft := fresh a (by simp [flatten])
    exact ⟨⟨fit.1.call, by simp [draft.value]⟩, draft.deferred, fit.2.letter⟩
  | group a inside ih =>
    exact ⟨inner (fresh a (by simp [flatten])) fit.1.call, ih fit.2.2 fun b member =>
      fresh b (List.mem_cons_of_mem _ member)⟩
  | fork a left right ihl ihr =>
    obtain ⟨here, l, r⟩ := fresh_fork.mp fresh
    exact ⟨inner here fit.1.call, ihl fit.2.2.1 l, ihr fit.2.2.2 r⟩

theorem Compact.foldFactorials (compact : x.Compact Label.IsDraft) :
    x.foldFactorials.1.Compact Label.IsDraft := by
  induction x with
  | leaf a =>
    simp only [Tree.foldFactorials]
    split
    · split
      · exact ⟨.collapse compact.1.marked trivial, Label.isDraft_collapse a _⟩
      · exact compact
    · exact compact
  | group a inner ih => exact ⟨compact.1, ih compact.2⟩
  | fork a left right ihl ihr =>
    simp only [Tree.foldFactorials]
    cases first : left.foldFactorials with
    | mk y ended =>
      have folded := ihl compact.2.1
      rw [first] at folded
      cases ended with
      | error error => exact ⟨compact.1, folded, compact.2.2⟩
      | ok done => exact ⟨compact.1, folded, ihr compact.2.2⟩

theorem monomial_compact (compact : x.Compact Label.IsDraft) (found : x.monomial? = some q) :
    q.IsCompact := by
  unfold monomial? at found
  split at found
  · next a left b base exponent =>
    split at found
    · cases found
    · obtain ⟨coefficient, -, found⟩ := Option.bind_eq_some_iff.mp found
      split at found
      · cases found
      · obtain ⟨letter, name, found⟩ := Option.bind_eq_some_iff.mp found
        obtain ⟨power, -, rfl⟩ := Option.map_eq_some_iff.mp found
        obtain ⟨low, high⟩ : 'a' ≤ letter ∧ letter ≤ 'z' := by
          cases base with
          | leaf c =>
            simp only [letterLeaf?] at name
            split at name
            · next here => exact head_letter here.1 (compact.2.2.2.1.2.letter here.1) name
            · cases name
          | group c inner => cases name
          | fork c first second => cases name
        have bare : (Quantity.polynomial (.monomial coefficient power letter)).IsBare :=
          Polynomial.monomial_named low high coefficient power
        exact (Quantity.bare_normalized bare).1
  · cases found

/-- What a term is recognized as. -/
theorem recognized_compact (compact : x.Compact Label.IsDraft) (found : x.recognized? = some q) :
    q.IsCompact := by
  unfold recognized? at found
  split at found
  · next term same => exact monomial_compact compact (same.trans found)
  · split at found
    · next here =>
      obtain ⟨letter, head, rfl⟩ := Option.map_eq_some_iff.mp found
      cases x with
      | leaf a =>
        obtain ⟨low, high⟩ := head_letter here.2 (compact.2.letter here.2) head
        exact Quantity.compact_monomial low high (by decide +kernel)
      | group a inner => cases here.1
      | fork a left right => cases here.1
    · cases found

theorem Compact.recognize (compact : x.Compact Label.IsDraft) : x.recognize.Compact Label.IsDraft := by
  have term {a : Mark} {y : Tree Mark} {v : Quantity} (marked : a.IsMarked)
      (compact : y.Compact Label.IsDraft) (found : y.recognized? = some v) :
      (leaf (a.collapse v)).Compact Label.IsDraft :=
    ⟨.collapse marked (recognized_compact compact found), Label.isDraft_collapse a v⟩
  induction x with
  | leaf a =>
    simp only [Tree.recognize]
    split
    · next found => exact term compact.1.marked compact found
    · exact compact
  | group a inner ih => exact ⟨compact.1, ih compact.2⟩
  | fork a left right ihl ihr =>
    simp only [Tree.recognize]
    split
    · next found => exact term compact.1.marked compact found
    · exact ⟨compact.1, ihl compact.2.1, ihr compact.2.2⟩

/-- A term around the shape of an operator has no number. -/
theorem not_constant_callTerm (inner : x.isLeaf = false) (keyword : String) (before : Option Quantity) :
    (x.callTerm keyword before).isConstant = false := by
  unfold callTerm
  simp only [inner]
  cases TrigFunction.ofName? keyword <;> rfl

/-- A call gets its term, and nothing else changes but what is reduced. -/
theorem attachCall_cases (x : Tree Mark) : ∃ value reduced, x.attachCall = { x.top with value, reduced } ∧
    (value = x.top.value ∨ ∃ keyword, value = some (x.callTerm keyword none)) := by
  unfold attachCall
  split
  · next keyword _ =>
    split
    · exact ⟨x.top.value, x.top.reduced, rfl, .inl rfl⟩
    · exact ⟨some (x.callTerm keyword none), x.isLeaf, rfl, .inr ⟨keyword, rfl⟩⟩
  · split
    · exact ⟨x.top.value, false, rfl, .inl rfl⟩
    · exact ⟨x.top.value, x.top.reduced, rfl, .inl rfl⟩

theorem Compact.attachQuantities (compact : x.Compact Label.IsDraft) :
    x.attachQuantities.Compact Label.IsPutOff := by
  have inner {x : Tree Mark} (inside : x.isLeaf = false) (holds : x.top.HoldsTerm) :
      x.attachCall.HoldsTerm := by
    obtain ⟨value, reduced, same, kept⟩ := attachCall_cases x
    rw [same]
    refine ⟨holds.marked, fun q member => ?_, holds.unary⟩
    rcases kept with rfl | ⟨keyword, rfl⟩
    · exact holds.term q member
    · obtain rfl := Option.some.inj member
      exact ⟨isTerm_callTerm x keyword none, not_constant_callTerm inside keyword none⟩
  induction x with
  | leaf a =>
    have number : (leaf a.attachNumber).Compact Label.IsDraft := by
      unfold Label.attachNumber
      split
      · split
        · exact ⟨.collapse compact.1.marked trivial, Label.isDraft_collapse a _⟩
        · exact compact
      · exact compact
    obtain ⟨value, reduced, same, kept⟩ := attachCall_cases (leaf a.attachNumber)
    rw [Tree.attachQuantities, same]
    refine ⟨⟨number.marked, fun q member => ?_⟩, Label.isPutOff_of_open number.2.undeferred⟩
    rcases kept with rfl | ⟨keyword, rfl⟩
    · exact number.value q member
    · exact Option.some.inj member ▸ Quantity.compact_of_term (isTerm_callTerm _ keyword none)
  | group a inside ih => exact ⟨inner rfl compact.1, ih compact.2⟩
  | fork a left right ihl ihr => exact ⟨inner rfl compact.1, ihl compact.2.1, ihr compact.2.2⟩

theorem Compact.prepare (compact : x.Compact Label.IsDraft) : x.prepare.1.Compact Label.IsPutOff := by
  have folded := compact.foldFactorials
  unfold Tree.prepare
  split
  · next y same =>
    rw [same] at folded
    exact folded.recognize.attachQuantities
  · exact folded.mono fun a draft => Label.isPutOff_of_open draft.undeferred

/-! ### Reduction -/

theorem compact_value (compact : q.IsCompact) : (Tree.value q).Compact Label.IsPutOff :=
  ⟨⟨by simp [Label.IsMarked, Label.ofValue], fun _ same => Option.some.inj same ▸ compact⟩,
    Label.isPutOff_of_open rfl⟩

theorem compact_operator {kind : Token.Kind} (text : String) (l : x.Compact p) (r : y.Compact p) :
    (fork { token := .inserted kind text } x y).Compact p :=
  ⟨⟨by simp [Label.IsMarked], by simp, fun sign => by cases sign⟩, l, r⟩

theorem compact_settled (marked : a.IsMarked) (compact : q.IsCompact) :
    (settled a q).Compact Label.IsPutOff := by
  unfold settled
  cases a.termKeyword? with
  | some keyword =>
    refine ⟨⟨marked, fun v member => ?_⟩, Label.isPutOff_of_open rfl⟩
    exact Option.some.inj member ▸ Quantity.compact_of_term (isTerm_callTerm _ keyword a.value)
  | none =>
    simp only
    split
    · exact ⟨⟨marked, fun _ same => Option.some.inj same ▸ compact⟩, Label.isPutOff_of_open rfl⟩
    · exact ⟨.collapse marked compact, Label.isPutOff_of_open rfl⟩

/-- What the operands combine to is compact. -/
theorem combination_compact {left right : Option Quantity} {q : Quantity} (l : ∀ q ∈ left, q.IsCompact)
    (r : ∀ q ∈ right, q.IsCompact) (combined : combination a left right = .ok (some q)) : q.IsCompact := by
  unfold combination at combined
  split at combined
  · next operation first second _ =>
    have offers := Quantity.apply_compact operation (l first rfl) (r second rfl)
    rw [combined] at offers
    exact offers q rfl
  · split at combined
    · exact l q (Except.ok.inj combined)
    · cases combined

theorem Compact.operands (compact : x.Compact p) :
    (∀ q ∈ x.operands.1, q.IsCompact) ∧ ∀ q ∈ x.operands.2, q.IsCompact := by
  cases x with
  | leaf a => exact ⟨by simp [Tree.operands], by simp [Tree.operands]⟩
  | group a inner => exact ⟨Compact.value compact.2, by simp [Tree.operands]⟩
  | fork a left right => exact ⟨Compact.value compact.2.1, Compact.value compact.2.2⟩

theorem Compact.differentiate (compact : (leaf a).Compact Label.IsPutOff) :
    (leaf a).differentiate.Compact Label.IsPutOff := by
  unfold Tree.differentiate
  simp only [top_leaf]
  cases derived : a.value.bind Quantity.derivative? with
  | none => exact ⟨⟨compact.1.marked, compact.1.value⟩, fun _ => derived⟩
  | some d =>
    obtain ⟨q, value, derivative⟩ := Option.bind_eq_some_iff.mp derived
    have bare : ({ a with call := none } : Mark).IsMarked := by simp [Label.IsMarked]
    exact ⟨.collapse bare (Quantity.derivative_compact (compact.1.value q value).level derivative),
      Label.isPutOff_of_open rfl⟩

/-- The letter of a linear side comes from the text. -/
theorem linear_compact {p : Polynomial} (compact : x.Compact r) (linear : x.linear? = some p) :
    p.IsNamed ∧ (p.coefficient 1 == 0.0) = false := by
  unfold linear? at linear
  split at linear
  · next v value =>
    split at linear
    · next degree =>
      obtain rfl := Option.some.inj linear
      have named : v.IsNamed := (compact.value _ value).1
      exact ⟨named, named.slope degree⟩
    · cases linear
  · cases linear

theorem Compact.settleEquation (compact : x.Compact p) (inner : x.isLeaf = false) :
    x.settleEquation.Compact p :=
  compact.relabel inner fun _ => ⟨rfl, rfl, rfl, rfl⟩

theorem Compact.isolate (compact : x.Compact Label.IsPutOff) (inner : x.isLeaf = false) :
    x.isolate.Compact Label.IsPutOff := by
  have settled := compact.settleEquation inner
  have number (n : Float) : (Tree.value (.constant n)).Compact Label.IsPutOff := compact_value trivial
  cases x with
  | leaf a => cases inner
  | group a inside => exact settled
  | fork a left right =>
    obtain ⟨label, l, r⟩ := compact
    simp only [Tree.isolate]
    split
    · exact ⟨label, compact_operator "-" l r, number _⟩
    · split
      · next p linear =>
        obtain ⟨named, slope⟩ := linear_compact l linear
        have term {n : Float} (nonzero : (n == 0.0) = false) :
            (Tree.value (.polynomial (.monomial n 1 p.letter))).Compact Label.IsPutOff :=
          compact_value (Quantity.compact_monomial named.low named.high nonzero)
        split
        · refine ⟨label, term slope, ?_⟩
          unfold offsetMove
          split
          · exact compact_operator "+" r (number _)
          · exact compact_operator "-" r (number _)
        · split
          · exact ⟨label, term (by decide +kernel), compact_operator "/" r (number _)⟩
          · exact settled
      · exact settled

/-- A reduction keeps what is held compact. -/
theorem Compact.reduceTop (compact : x.Compact Label.IsPutOff) (reduced : x.reduceTop = .ok y) :
    y.Compact Label.IsPutOff := by
  unfold Tree.reduceTop at reduced
  split at reduced
  · next isLeaf =>
    obtain rfl := Except.ok.inj reduced
    cases x with
    | leaf a => exact compact.differentiate
    | group a inside => cases isLeaf
    | fork a left right => cases isLeaf
  · next inner =>
    have inner : x.isLeaf = false := by simpa using inner
    split at reduced
    · exact Except.ok.inj reduced ▸ compact.isolate inner
    · split at reduced
      · next combined =>
        obtain ⟨l, r⟩ := compact.operands
        exact Except.ok.inj reduced ▸ compact_settled compact.marked (combination_compact l r combined)
      · exact Except.ok.inj reduced ▸ compact.relabel inner fun _ => ⟨rfl, rfl, rfl, rfl⟩
      · cases reduced

theorem Compact.step (compact : x.Compact Label.IsPutOff) (stepped : x.step? = some (.ok y)) :
    y.Compact Label.IsPutOff := by
  induction x generalizing y with
  | leaf a =>
    obtain ⟨_, reduced⟩ := step_leaf_cases stepped
    exact compact.reduceTop reduced.symm
  | group a inner ih =>
    rcases step_group_cases stepped with ⟨r, here, result⟩ | ⟨_, _, reduced⟩
    · obtain ⟨z, rfl, rfl⟩ := of_map_ok result.symm
      exact ⟨compact.1, ih compact.2 here⟩
    · exact compact.reduceTop reduced.symm
  | fork a left right ihl ihr =>
    rcases step_fork_cases stepped with ⟨r, here, result⟩ | ⟨r, here, result⟩ | ⟨_, _, _, reduced⟩
    · obtain ⟨z, rfl, rfl⟩ := of_map_ok result.symm
      exact ⟨compact.1, ihl compact.2.1 here, compact.2.2⟩
    · obtain ⟨z, rfl, rfl⟩ := of_map_ok result.symm
      exact ⟨compact.1, compact.2.1, ihr compact.2.2 here⟩
    · exact compact.reduceTop reduced.symm

theorem Compact.next (compact : x.Compact Label.IsPutOff) (goes : x.next? = some (.ok y)) :
    y.Compact Label.IsPutOff := by
  unfold next? at goes
  split at goes
  · exact compact.step goes
  · cases goes

/-- A run leads to a tree that holds compact quantities still. -/
theorem Compact.reduct (compact : x.Compact Label.IsPutOff) : x.reduct.Compact Label.IsPutOff := by
  fun_induction Tree.run x with
  | case1 x stops =>
    rw [Tree.reduct, run_done stops]
    exact compact
  | case2 x error fails =>
    rw [Tree.reduct, run_fails fails]
    exact compact
  | case3 x y goes ih =>
    rw [reduct_goes goes]
    exact ih (compact.next goes)

/-- What an evaluation leaves of a text holds compact quantities. -/
theorem Grammatical.trace_compact (grammatical : x.Grammatical) : x.trace.tree.Compact Label.IsPutOff := by
  have prepared := grammatical.compact.prepare
  unfold Tree.trace
  split
  · next y error same =>
    rw [same] at prepared
    exact prepared
  · next y same =>
    rw [same] at prepared
    have reduct := prepared.reduct
    unfold Tree.reduceFully
    split
    · exact reduct
    · split
      · exact reduct
      · next z simplified =>
        unfold Tree.simplifyRoot at simplified
        split at simplified
        · next n name _ =>
          obtain ⟨constant, formed, rfl⟩ := of_map_ok simplified
          have bare : ({ y.reduct.top with call := none } : Mark).IsMarked := by simp [Label.IsMarked]
          have settled := Quotient.ofNumber_settled n name
          rw [formed] at settled
          exact ⟨.collapse bare settled.compact, Label.isPutOff_of_open rfl⟩
        · exact Except.ok.inj simplified ▸ reduct

end Tree

end Stepwise
