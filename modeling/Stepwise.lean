import Stepwise.Decimal.Fixed
import Stepwise.Decimal.Read
import Stepwise.Decimal.Shortest
import Stepwise.Text.Blank
import Stepwise.Failure
import Stepwise.Token.ImplicitProduct
import Stepwise.Expression.Render
import Stepwise.Expression.OfText
import Stepwise.Number.Factorial
import Stepwise.Number.Ratio
import Stepwise.Quantity.Polynomial
import Stepwise.Quantity.Arithmetic
import Stepwise.Formula.Trace
import Stepwise.LinearSystem.Table
import Stepwise.Matrix.Request
import Stepwise.NumberSet
import Stepwise.Display.Screen
import Stepwise.Main
import Stepwise.Proofs.Tree.Basic
import Stepwise.Proofs.Tree.Walk
import Stepwise.Proofs.Tree.Render
import Stepwise.Proofs.Tree.Draft
import Stepwise.Proofs.Tree.Grow
import Stepwise.Proofs.Tree.Building
import Stepwise.Proofs.Decimal.Double
import Stepwise.Proofs.Decimal.Whole
import Stepwise.Proofs.Quantity.Constant
import Stepwise.Proofs.Quantity.Rational
import Stepwise.Proofs.Reduction.Again
import Stepwise.Proofs.Reduction.Rational
import Stepwise.Proofs.Phrase.Basic
import Stepwise.Proofs.Phrase.Build
import Stepwise.Proofs.Phrase.RoundTrip
import Stepwise.Proofs.Tree.Grammatical
import Stepwise.Proofs.Reduction.Termination
import Stepwise.Proofs.Decimal.Numeral
import Stepwise.Proofs.Reduction.Intact
import Stepwise.Proofs.Reduction.Snapshot
import Stepwise.Proofs.Quantity.Polynomial
import Stepwise.Proofs.Tree.Expansion
import Stepwise.Proofs.Reduction.Equation
import Stepwise.Proofs.Decimal.Value
import Stepwise.Proofs.Matrix.Entries
import Stepwise.Proofs.Matrix.Echelon
import Stepwise.Proofs.Matrix.Exact
import Stepwise.Proofs.Matrix.Solution
import Stepwise.Proofs.Reduction.Plain
import Stepwise.Proofs.LinearSystem.Collect
import Stepwise.Proofs.LinearSystem.Balance
import Stepwise.Proofs.Decimal.Rounding
import Stepwise.Proofs.Matrix.Discern
import Stepwise.Proofs.Matrix.Classify
import Stepwise.Proofs.LinearSystem.Linear
import Stepwise.Proofs.LinearSystem.Table
import Stepwise.Proofs.LinearSystem.Classify
import Stepwise.Proofs.LinearSystem.Calls
import Stepwise.Proofs.Session.Invariant
import Stepwise.Proofs.Decimal.Nearest
import Stepwise.Proofs.Decimal.Written
import Stepwise.Proofs.Quantity.Finite
import Stepwise.Proofs.Quantity.Reduced
import Stepwise.Proofs.Quantity.Wording
import Stepwise.Proofs.Reduction.Finite
import Stepwise.Proofs.Decimal.Quotient
import Stepwise.Proofs.LinearSystem.Agreement
import Stepwise.Proofs.Session.Recall
import Stepwise.Proofs.Tree.Acceptance
import Stepwise.Proofs.Tree.Written
import Stepwise.Proofs.Tree.Precedence
import Stepwise.Proofs.Tree.Shape
import Stepwise.Proofs.Tree.Keywords
import Stepwise.Proofs.Tree.Exponent
import Stepwise.Proofs.Phrase.Reading
import Stepwise.Proofs.Phrase.Telling
import Stepwise.Proofs.Quantity.Redraw
import Stepwise.Proofs.Reduction.Conflation
import Stepwise.Proofs.Reduction.Sign
import Stepwise.Proofs.Token.Bracketing
import Stepwise.Proofs.Token.Lexical
import Stepwise.Proofs.Reduction.Printed
import Stepwise.Proofs.Quantity.Zero
import Stepwise.Proofs.Reduction.Replay
import Stepwise.Proofs.Reduction.Isolation
import Stepwise.Proofs.Quantity.Compact
import Stepwise.Proofs.Reduction.Answer
import Stepwise.Proofs.Reduction.Compact
import Stepwise.Proofs.Reduction.Change
import Stepwise.Proofs.Reduction.Closed
import Stepwise.Proofs.Reduction.Independent
import Stepwise.Proofs.Decimal.Division
import Stepwise.Proofs.Quantity.Integral
import Stepwise.Proofs.Quantity.Lowest
import Stepwise.Proofs.Quantity.Power
import Stepwise.Proofs.Decimal.Sum
import Stepwise.Proofs.Matrix.Cofactor
import Stepwise.Proofs.Matrix.Determinant
import Stepwise.Proofs.Matrix.Inverse
import Stepwise.Proofs.Matrix.Request
import Stepwise.Proofs.LinearSystem.Order
import Stepwise.Proofs.Text.Split
import Stepwise.Proofs.Display.Scroll
import Stepwise.Proofs.Decimal.Equality
import Stepwise.Proofs.NumberSet.Elements
import Stepwise.Proofs.Decimal.Figures
import Stepwise.Proofs.Decimal.Extended
import Stepwise.Proofs.Decimal.Stable
import Stepwise.Proofs.Text.Trim
import Stepwise.Proofs.Matrix.Literal
import Stepwise.Proofs.Matrix.Reading
import Stepwise.Proofs.Matrix.Reentry
import Stepwise.Proofs.Display.Highlight
