import Stepwise.Proofs.Quantity.Zero
import Stepwise.Proofs.Reduction.Apart
import Stepwise.Proofs.Reduction.Shown
import Stepwise.Proofs.Tree.Numeric

/-! Reducing arithmetic on decimal numbers. Every node of such a tree is a number or an operator
that is still to be reduced, and so it stays: an operation on two numbers is never put off. Main
statement: a run that ends with a value at the root has reckoned the value of the whole tree. -/
namespace Stepwise

open Quantity (constant fraction)

structure Label.Operates (a : Mark) (operation : Operation) : Prop where
  known : Operation.ofKind? a.token.kind = some operation
  spelled : a.token.Spelled
  written : a.token.isInserted = false
  call : a.call = none
  value : a.value = none
  reduced : a.reduced = false
  deferred : a.deferred = false

namespace Label.Operates

variable {a b : Mark} {operation : Operation}

theorem kind_eq (first : a.Operates operation) (second : b.Operates operation) :
    a.token.kind = b.token.kind := by
  have kindl := first.known
  have kindr := second.known
  cases here : a.token.kind <;> simp [here, Operation.ofKind?] at kindl <;>
    cases there : b.token.kind <;> simp [there, Operation.ofKind?, ← kindl] at kindr <;> rfl

theorem text_eq (first : a.Operates operation) (second : b.Operates operation) :
    a.token.text = b.token.text := by
  rw [Token.spelled_symbol first.spelled (Tree.rank_of_operation first.known).1,
    Token.spelled_symbol second.spelled (Tree.rank_of_operation second.known).1, first.kind_eq second]

theorem isSettled (operates : a.Operates operation) : a.isSettled = false := by
  simp [Label.isSettled, operates.reduced, operates.deferred]

theorem settled (operates : a.Operates operation) (q : Quantity) :
    Tree.settled a q = .leaf (a.collapse q) := by
  simp [Tree.settled, Label.termKeyword?, Label.isDerivative, operates.call]

end Label.Operates

namespace Tree

variable {x y left right : Tree Mark} {a b c : Mark} {p q : Quantity} {operation : Operation}

/-- Numbers and operators on them that are still to be reduced. A sign has a zero for its left operand. -/
inductive Reckoned : Tree Mark → Prop
  | number {a : Mark} {q : Quantity} (call : a.call = none) (value : a.value = some q)
      (number : IsNumber q) : Reckoned (leaf a)
  | operator {a : Mark} {operation : Operation} {left right : Tree Mark} (operates : a.Operates operation)
      (sign : a.unary → (operation = .add ∨ operation = .subtract) ∧ ∃ b, left = leaf b ∧
      b.value = some (constant 0.0))
      (first : Reckoned left) (second : Reckoned right) : Reckoned (fork a left right)

def amount? : Tree Mark → Option Quantity
  | leaf a => a.value
  | group _ inner => inner.amount?
  | fork a left right =>
    (Operation.ofKind? a.token.kind).bind fun operation => left.amount?.bind fun p =>
        right.amount?.bind fun q =>
      (p.apply operation q).toOption.join

namespace Reckoned

theorem isNumber_of_settled (settled : q.IsSettled) : IsNumber q := by
  cases settled with
  | number finite => exact .inl ⟨_, rfl⟩
  | ratio ratio => exact .inr ⟨_, _, rfl, ratio⟩

theorem idle_leaf_of_call (call : a.call = none) : (leaf a).isPending = false := by
  simp [isPending, isLeaf, Label.isDerivative, call]

/-- Only a number is at rest. -/
theorem of_idle (reckoned : x.Reckoned) (idle : x.Idle) :
    ∃ a q, x = leaf a ∧ a.call = none ∧ a.value = some q ∧ IsNumber q := by
  cases reckoned with
  | number call value number => exact ⟨_, _, rfl, call, value, number⟩
  | operator operates => exact absurd idle (not_idle_of_pending (pending_fork operates.isSettled _ _))

end Reckoned

/-- An operator on two values is replaced by what they combine to. -/
theorem reduceTop_values (operates : a.Operates operation) (first : b.value = some p)
    (second : c.value = some q) :
    (fork a (leaf b) (leaf c)).reduceTop = match p.apply operation q with
      | .ok (some v) => .ok (leaf (a.collapse v))
      | .ok none => .ok (fork a (leaf b) (leaf c)).defer
      | .error error => .error error := by
  have equation : a.token.kind ≠ .equals := (rank_of_operation operates.known).2
  have combined : combination a (some p) (some q) = p.apply operation q := by
    simp only [combination, operates.known]
  simp only [reduceTop, isLeaf, top_fork, top_leaf, operands, first, second, combined, equation,
    Bool.false_eq_true, if_false]
  split <;> simp_all [operates.settled]

/-- Operations on numbers are not put off. -/
theorem apply_numbers (operation : Operation) (left : IsNumber p) (right : IsNumber q) :
    (∃ error, p.apply operation q = .error error) ∨ ∃ v, p.apply operation q = .ok (some v) ∧
    v.IsSettled := by
  have settles := Quantity.apply_settles operation left.value right.value
  cases outcome : p.apply operation q with
  | error error => exact .inl ⟨error, rfl⟩
  | ok result =>
    rw [outcome] at settles
    obtain ⟨v, rfl, settled⟩ := settles
    exact .inr ⟨v, rfl, settled⟩

namespace Reckoned

/-- A step leaves numbers and operators, and the value of the tree. -/
theorem step (reckoned : x.Reckoned) (stepped : x.step? = some (.ok y)) :
    y.Reckoned ∧ y.amount? = x.amount? := by
  induction reckoned generalizing y with
  | number call value number =>
    obtain ⟨pending, -⟩ := step_leaf_cases stepped
    rw [idle_leaf_of_call call] at pending
    cases pending
  | @operator a operation left right operates sign first second ihl ihr =>
    rcases step_fork_cases stepped with ⟨r, here, result⟩ | ⟨r, here, result⟩ | ⟨l, r, pending, reduced⟩
    · obtain ⟨z, rfl, rfl⟩ := of_map_ok result.symm
      obtain ⟨later, same⟩ := ihl here
      refine ⟨.operator operates (fun unary => ?_) later second, by simp only [amount?, same]⟩
      -- the zero of a sign is at rest
      obtain ⟨-, b, rfl, value⟩ := sign unary
      cases first with
      | number call => simp [(step_none_iff (leaf b)).mpr (idle_leaf.mpr (idle_leaf_of_call call))] at here
    · obtain ⟨z, rfl, rfl⟩ := of_map_ok result.symm
      obtain ⟨later, same⟩ := ihr here
      exact ⟨.operator operates sign first later, by simp only [amount?, same]⟩
    · obtain ⟨b, p, rfl, -, value, number⟩ := first.of_idle l
      obtain ⟨c, q, rfl, -, value', number'⟩ := second.of_idle r
      rw [reduceTop_values operates value value'] at reduced
      rcases apply_numbers operation number number' with ⟨error, failed⟩ | ⟨v, combined, settled⟩
      · simp [failed] at reduced
      · simp only [combined] at reduced
        obtain rfl := Except.ok.inj reduced
        refine ⟨.number (a := a.collapse v) operates.call rfl (isNumber_of_settled settled), ?_⟩
        simp [amount?, operates.known, value, value', combined, Label.collapse, Except.toOption]

theorem next (reckoned : x.Reckoned) (goes : x.next? = some (.ok y)) :
    y.Reckoned ∧ y.amount? = x.amount? := by
  unfold next? at goes
  split at goes
  · exact reckoned.step goes
  · cases goes

theorem run (reckoned : x.Reckoned) : ∀ y ∈ x.run.1, y.Reckoned := by
  induction effort : x.effort using Nat.strong_induction_on generalizing x with
  | _ n ih =>
    cases goes : x.next? with
    | none => simp [run_done goes]
    | some result =>
      cases result with
      | error error => simp [run_fails goes]
      | ok z =>
        have later := (reckoned.next goes).1
        rw [run_goes goes]
        exact List.forall_mem_cons.mpr ⟨later, ih z.effort (effort ▸ effort_next goes) later rfl⟩

theorem reduct (reckoned : x.Reckoned) : x.reduct.Reckoned ∧ x.reduct.amount? = x.amount? := by
  induction effort : x.effort using Nat.strong_induction_on generalizing x with
  | _ n ih =>
    cases goes : x.next? with
    | none => simpa [Tree.reduct, run_done goes] using reckoned
    | some result =>
      cases result with
      | error error => simpa [Tree.reduct, run_fails goes] using reckoned
      | ok z =>
        obtain ⟨later, same⟩ := reckoned.next goes
        rw [reduct_goes goes, ← same]
        exact ih z.effort (effort ▸ effort_next goes) later rfl

/-- The value at the root of the last tree is the value of the first one. -/
theorem amount_of_reduct (reckoned : x.Reckoned) (value : x.reduct.top.value = some q) :
    x.amount? = some q := by
  obtain ⟨last, same⟩ := reckoned.reduct
  rw [← same]
  generalize x.reduct = y at last value
  cases last with
  | number => exact value
  | operator operates =>
    rw [top_fork, operates.value] at value
    cases value

/-- No call stands at the root. -/
theorem simplifyRoot (reckoned : x.Reckoned) : x.simplifyRoot = .ok x := by
  cases reckoned with
  | number call => simp [Tree.simplifyRoot, rootNumber?, call]
  | operator operates => rfl

/-- What the reductions end with is the last tree. They show the lines of the run, or one line twice. -/
theorem reduceFully (reckoned : x.Reckoned) :
    x.reduceFully.tree = x.reduct ∧ (x.reduceFully.lines = x.linesWith [] ∨
    ((x.linesWith []).length = 1 ∧ x.reduceFully.lines.length = 2)) := by
  have same : x.linesWith [x.reduct] = x.linesWith [] := by
    rw [linesWith_one]
    simp [fresh]
  unfold Tree.reduceFully
  cases x.run.2 with
  | error error => exact ⟨rfl, .inl rfl⟩
  | ok done =>
    simp only [reckoned.reduct.1.simplifyRoot, same]
    refine ⟨trivial, ?_⟩
    split
    · next single => exact .inr ⟨single, by simp [single]⟩
    · exact .inl rfl

end Reckoned

/-! A tree that is read is prepared by giving its numbers their values. -/

theorem read_numeral {text : String} (numeral : Token.IsNumeral text.toList) :
    ∃ n, Decimal.readMagnitude? text.toList = some n ∧ Decimal.read? text = some n := by
  have magnitude := Decimal.readDigits_numeral numeral
  rw [← Decimal.readMagnitude_numeral numeral] at magnitude
  obtain ⟨n, magnitude⟩ := Option.isSome_iff_exists.mp magnitude
  exact ⟨n, magnitude, Decimal.read_plain numeral magnitude⟩

/-- A number that is read holds the double nearest to it. -/
theorem attach_read {token : Token} {n : Float} (kind : token.kind = .number)
    (read : Decimal.read? token.text = some n) :
    (leaf ({ token } : Mark)).attachQuantities = leaf (({ token } : Mark).collapse (constant n)) := by
  have attached : ({ token } : Mark).attachNumber = ({ token } : Mark).collapse (constant n) :=
    attachNumber_fresh rfl kind read
  rw [attachQuantities, attached, attachCall_unmarked rfl]
  rfl

theorem attach_fork {token : Token} {unary : Bool} {left right : Tree Mark} :
    (fork ({ token, unary } : Mark) left right).attachQuantities =
    fork { token, unary } left.attachQuantities right.attachQuantities := by
  rw [attachQuantities, attachCall_unmarked rfl]
  rfl

theorem attach_zero : (leaf ({ token := .inserted .number "0" } : Mark)).attachQuantities =
    leaf (({ token := .inserted .number "0" } : Mark).collapse (constant 0.0)) :=
  attach_read rfl (by decide +kernel)

theorem operates_fresh {token : Token}
    {unary : Bool} (known : Operation.ofKind? token.kind = some operation) (spelled : token.Spelled)
    (written : token.isInserted = false) : ({ token, unary } : Mark).Operates operation :=
  ⟨known, spelled, written, rfl, rfl, rfl, rfl⟩

namespace Numeric

theorem prepare (numeric : x.Numeric) : x.prepare = (x.attachQuantities, .ok ()) := by
  have factorials : x.foldFactorials = (x, .ok ()) :=
    foldFactorials_absent fun a member factorial => by
      simpa [factorial, Operation.ofKind?] using numeric.kinds a member
  have letters : x.recognize = x :=
    recognize_absent fun a member letter => by simpa [letter, Operation.ofKind?] using numeric.kinds a member
  rw [Tree.prepare, factorials]
  simp only [letters]

theorem reckoned (numeric : x.Numeric) : x.attachQuantities.Reckoned := by
  have number {token : Token} {n : Float} (kind : token.kind = .number)
      (read : Decimal.read? token.text = some n) :
      (leaf ({ token } : Mark)).attachQuantities.Reckoned := by
    rw [attach_read kind read]
    exact .number rfl rfl (.inl ⟨n, rfl⟩)
  induction numeric with
  | number kind numeral =>
    obtain ⟨n, -, read⟩ := read_numeral numeral
    exact number kind read
  | negative numeral position =>
    obtain ⟨n, magnitude, -⟩ := read_numeral numeral
    exact number rfl (Decimal.read_negated magnitude)
  | @sign token right kind spelled written operand ih =>
    rw [attach_fork, attach_zero]
    have zero :
      (leaf (({ token := .inserted .number "0" } : Mark).collapse (constant 0.0))).Reckoned :=
      .number rfl rfl (.inl ⟨_, rfl⟩)
    rcases kind with plus | minus
    · exact .operator (operates_fresh (by rw [plus]; rfl) spelled written)
        (fun _ => ⟨.inl rfl, _, rfl, rfl⟩) zero ih
    · exact .operator (operates_fresh (by rw [minus]; rfl) spelled written)
        (fun _ => ⟨.inr rfl, _, rfl, rfl⟩) zero ih
  | operator kind spelled written first second ihl ihr =>
    rw [attach_fork]
    exact .operator (operates_fresh kind spelled written) (fun unary => (by cases unary)) ihl ihr

/-- What an evaluation leaves and the lines that it shows. -/
theorem trace_eq (numeric : x.Numeric) : x.trace.tree = x.attachQuantities.reduct ∧
    (x.trace.lines = x.attachQuantities.linesWith [] ∨
      ((x.attachQuantities.linesWith []).length = 1 ∧ x.trace.lines.length = 2)) := by
  simp only [Tree.trace, numeric.prepare]
  exact numeric.reckoned.reduceFully

end Numeric

end Tree

end Stepwise
