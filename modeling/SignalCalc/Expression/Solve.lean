import SignalCalc.Expression.Numeric
import SignalCalc.Expression.Scan
import SignalCalc.Expression.Symbolic

/-!
# Solving expressions

An expression is solved for its numeric value over datasets, or read as a polynomial in `s`.
-/

namespace SignalCalc

variable {α : Type} [Zero α] [One α] [Neg α] [Add α] [Sub α] [Mul α] [Div α] [NatCast α]
  [OfScientific α] [Max α] [LT α] [DecidableLT α] [LE α] [DecidableLE α] [BEq α] [Elementary α]

/-- The value of an expression over datasets whose positions are multiplied by a factor. -/
def solve (datasets : List (Dataset α)) (factor : α) (expression : String) :
    Except (Error α) (Value α) := do
  let tokens ← scan (datasets.map (·.name)) .numeric expression
  (Interpretation.numeric datasets factor).evaluate tokens

/-- The polynomial that an expression denotes. References to datasets are resolved by the names, and
then refused. -/
def solvePoly (names : List String) (expression : String) : Except (Error α) (Poly α) := do
  let tokens ← scan names .symbolic expression
  Interpretation.symbolic.evaluate tokens

/-- The canonical text of the polynomial that an expression denotes over the given numbers. -/
def simplify (α : Type) [Zero α] [One α] [Neg α] [Add α] [Sub α] [Mul α] [Div α] [NatCast α]
    [OfScientific α] [LT α] [DecidableLT α] [BEq α] [Elementary α] [NumberText α]
    (names : List String) (expression : String) : Except (Error α) String := do
  let p : Poly α ← solvePoly names expression
  return p.text

end SignalCalc
