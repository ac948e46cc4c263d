import SignalCalc.Error
import SignalCalc.Expression.Solve

/-!
# Transfer functions

The quotient of two polynomials in `s` describes a filter in continuous time. A proper one has a
denominator other than zero, of at least the degree of the numerator.
-/

namespace SignalCalc

/-- The quotient `numerator / denominator`. -/
structure TransferFunction (α : Type) [Zero α] [BEq α] where
  numerator : Poly α
  denominator : Poly α

namespace TransferFunction

section Make

variable {α : Type} [Zero α] [BEq α]

/-- The transfer function with the given polynomials, if it is proper. -/
def make (numerator denominator : Poly α) : Except (Error α) (TransferFunction α) :=
  match denominator.degree? with
  | none => .error (.degenerate .zeroDenominator)
  | some order =>
    if order < numerator.natDegree then
      .error (.degenerate (.numeratorOrder numerator denominator))
    else .ok ⟨numerator, denominator⟩

/-- The text of the quotient. -/
def text [One α] [LT α] [DecidableLT α] [Elementary α] [NumberText α] (h : TransferFunction α) :
    String :=
  ratioText h.numerator h.denominator

end Make

variable {α : Type} [Zero α] [One α] [Neg α] [Add α] [Sub α] [Mul α] [Div α] [NatCast α]
  [OfScientific α] [LT α] [DecidableLT α] [BEq α] [Elementary α]

/-- The transfer function that two expressions in `s` denote. -/
def parse (numerator denominator : String) : Except (Error α) (TransferFunction α) := do
  let numerator ← solvePoly [] numerator
  let denominator ← solvePoly [] denominator
  make numerator denominator

/-- The response to an undamped oscillation, in radians per second. -/
def response (h : TransferFunction α) (omega : α) : Cplx α :=
  h.numerator.evaluateCplx ⟨0, omega⟩ / h.denominator.evaluateCplx ⟨0, omega⟩

end TransferFunction

end SignalCalc
