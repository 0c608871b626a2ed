import Stepwise.Formula.Reduce
import Stepwise.Text.Split

/-! The trace of an evaluation. It opens with the prepared formula and then shows the whole formula
after each reduction that changes its text; a formula that nothing changes is shown again as its
own result. The last line is read as a number, also on the right of a solved equation. -/
namespace Stepwise.Formula

/-- The formula as far as it is reduced, and the lines shown on the way. -/
structure Trace where
  formula : Formula
  steps : Array String
  /-- The text of the formula, which the next line has to differ from. -/
  last : String

namespace Trace

def opening (formula : Formula) : Trace :=
  let text := formula.render
  ⟨formula, #["Expression: " ++ text], text⟩

/-- Goes on with a new formula and shows it if its text is new. -/
def record (t : Trace) (formula : Formula) : Trace :=
  let text := formula.render
  if text = t.last then { t with formula } else ⟨formula, t.steps.push text, text⟩

/-- Reduces while the root is pending. A reduction that fails ends the trace where it stands. -/
def reduceWhilePending : Nat → Trace → Trace × Except ComputationError Unit
  | 0, t => (t, .ok ())
  | fuel + 1, t =>
    if isPending (t.formula.node t.formula.root) then
      match deepestPending t.formula with
      | none => (t, .ok ())
      | some id =>
        match reduce t.formula id with
        | .ok formula => reduceWhilePending fuel (t.record formula)
        | .error error => (t, .error error)
    else (t, .ok ())

end Trace

/-- The number that a term at the root has become, and the name of its function. -/
def rootNumber? (e : Formula) : Option (Float × String) :=
  let root := e.node e.root
  if root.isLeaf && root.call.isSome then
    match root.value with
    | some (.trig t) => t.value?.map (·, t.function.name)
    | some (.log t) => t.value?.map (·, "log")
    | _ => none
  else none

/-- Replaces a term at the root that has become a number. -/
def simplifyRoot (e : Formula) : Except ComputationError Formula :=
  match rootNumber? e with
  | some (x, name) =>
    (Quantity.ofNumber x name).map fun constant =>
      (e.modify e.root fun node => { node with call := none }).collapse e.root constant
  | none => .ok e

/-- Enough reductions for every formula that comes from a text: none takes more than seven for
each of its nodes. -/
def reductionLimit (e : Formula) : Nat := 8 * e.size + 8

/-- Reduces a formula as far as it goes. -/
def trace (e : Formula) : Trace × Except ComputationError Unit :=
  match prepare e with
  | (e, .error error) => (.opening e, .error error)
  | (e, .ok ()) =>
    match (Trace.opening e).reduceWhilePending (reductionLimit e) with
    | (t, .error error) => (t, .error error)
    | (t, .ok ()) =>
      match simplifyRoot t.formula with
      | .error error => (t, .error error)
      | .ok formula =>
        let t := t.record formula
        if t.steps.size = 1 then ({ t with steps := t.steps.push t.last }, .ok ()) else (t, .ok ())

/-- The right side of a solved equation, or the line itself. -/
def solvedSide? (line : String) : Option String :=
  match Text.cut? " = " line with
  | none => some line
  | some (left, right) =>
    match left.toList with
    | [c] => if 'a' ≤ c ∧ c ≤ 'z' then some right else none
    | _ => none

/-- The text without the round brackets at its ends. -/
def withoutBrackets (text : String) : String :=
  let isBracket (c : Char) : Bool := c = '(' || c = ')'
  String.ofList ((text.toList.dropWhile isBracket).reverse.dropWhile isBracket).reverse

/-- The number that a line shows: a decimal, a fraction `n/d`, or either on the right of `v = `. -/
def valueOfLine (line : String) : Except ComputationError Float :=
  let read (text : String) : Except ComputationError Float :=
    match Decimal.read? text with
    | some x => .ok x
    | none => .error (.nonNumericResult line)
  match solvedSide? line with
  | none => .error (.nonNumericResult line)
  | some text =>
    match Text.cut? "/" text with
    | none => read (Text.trim text)
    | some (numerator, denominator) => do
      let n ← read (Text.trim numerator)
      let d ← read (withoutBrackets (Text.trim denominator))
      if d == 0.0 then .error .zeroDenominator else .ok (n / d)

/-- A formula reduced as far as it goes, the lines shown on the way, and its value. -/
structure Evaluation where
  formula : Formula
  steps : Array String
  value : Except Failure Float

def evaluate (e : Formula) : Evaluation :=
  let (t, ended) := trace e
  let value := do
    ended
    valueOfLine (t.steps.back?.getD "")
  ⟨t.formula, t.steps, value.mapError .computation⟩

end Stepwise.Formula
