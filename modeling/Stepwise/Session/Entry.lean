import Stepwise.Formula.Trace
import Stepwise.LinearSystem.Table
import Stepwise.Matrix.Request
import Stepwise.NumberSet
import Stepwise.Session.Mode

/-! A request together with its answer and the lines that lead to it. Each mode reads the request
in its own way. A formula keeps the lines of a trace that failed; the other modes have lines only
when they have an answer. -/
namespace Stepwise

/-- What a request comes to: the lines on the way, and the text of the answer. -/
structure Computation where
  steps : List String
  outcome : Except Failure String

namespace Computation

def ofFailure (failure : Failure) : Computation := ⟨[], .error failure⟩

/-- A formula that has no number is its own answer. -/
def ofFormula (input : String) : Computation :=
  match Expression.ofText input with
  | .error error => ofFailure (.grammar error)
  | .ok e =>
    let evaluation := Formula.evaluate e
    let outcome := match evaluation.value with
      | .ok x => .ok (Decimal.sixPlaces x)
      | .error (.computation (.nonNumericResult line)) => .ok line
      | .error failure => .error failure
    ⟨evaluation.steps.toList, outcome⟩

/-- The equations of a system, which semicolons and line breaks separate. -/
def equations (input : String) : List String :=
  ((Text.split (fun c => c = ';' || c = '\n') input).map Text.trim).filter (!·.isEmpty)

def ofSystem (input : String) : Computation :=
  match LinearSystem.solve (equations input) with
  | .ok lines => ⟨lines, .ok (String.intercalate "; " lines)⟩
  | .error failure => ofFailure failure

/-- A request answered in one go shows itself and then its answer. -/
def direct (input : String) (answer : Except ComputationError String) : Computation :=
  match answer with
  | .ok answer => ⟨[input, answer], .ok answer⟩
  | .error error => ofFailure (.computation error)

def ofMatrices (input : String) : Computation :=
  direct input do
    let request ← Matrix.Request.ofText input
    return (← request.answer).text

def ofSets (input : String) : Computation :=
  direct input do
    let request ← NumberSet.Request.ofText input
    return NumberSet.text request.answer

def ofText (mode : Mode) (input : String) : Computation :=
  match mode with
  | .expression => ofFormula input
  | .system => ofSystem input
  | .matrix => ofMatrices input
  | .set => ofSets input

end Computation

/-- A computed request. -/
structure Entry extends Computation where
  mode : Mode
  input : String

namespace Entry

/-- Computes a request, which counts without the blanks around it. -/
def compute (mode : Mode) (input : String) : Entry :=
  let input := Text.trim input
  { Computation.ofText mode input with mode, input }

def failed (entry : Entry) : Bool :=
  match entry.outcome with
  | .ok _ => false
  | .error _ => true

/-- The request and its answer, or the kind of its failure, on one line. -/
def summary (entry : Entry) : String :=
  entry.input ++ " => " ++ match entry.outcome with
    | .ok answer => answer
    | .error failure => failure.category

end Entry

end Stepwise
