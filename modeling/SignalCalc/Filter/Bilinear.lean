import SignalCalc.Filter.TransferFunction

/-!
# From continuous to discrete time

The bilinear transform puts `2 * rate * (z - 1) / (z + 1)` in the place of `s`. Both polynomials of
the transfer function are multiplied by the power of `z + 1` that clears every fraction, and their
coefficients are listed by ascending powers of `1 / z`.
-/

namespace SignalCalc

variable {α : Type} [Zero α] [One α] [Neg α] [Add α] [Sub α] [Mul α] [Div α] [NatCast α]
  [OfScientific α] [LT α] [DecidableLT α] [BEq α] [Elementary α]

namespace Poly

/-- What the power `s ^ power` becomes, multiplied by `(z + 1) ^ order`, but for the factor before
the fraction. -/
def substitutedPower (order power : Nat) : Poly α :=
  (ofList [-1, 1]).pow power * (ofList [1, 1]).pow (order - power)

/-- The polynomial in `z` that a polynomial in `s` becomes, multiplied by `(z + 1) ^ order`, where
`k` is the factor before the fraction. -/
def substitute (p : Poly α) (order : Nat) (k : α) : Poly α :=
  p.coeffs.zipIdx.foldl
    (fun sum (c, power) => sum + (substitutedPower order power).scale (c * powInt k power)) 0

/-- The coefficients up to a degree by descending powers, which are ascending powers of `1 / z` once
the highest power has been divided out. -/
def descending (p : Poly α) (order : Nat) : List α :=
  (List.range (order + 1)).map fun j => p.coeff (order - j)

end Poly

/-- The coefficients of a discrete filter by ascending powers of `1 / z`: first those of the
numerator, then those of the denominator, not normalized. -/
def TransferFunction.bilinear (h : TransferFunction α) (rate : α) :
    Except (Error α) (List α × List α) := do
  if !(isFinite rate && decide (0 < rate)) then throw (.invalidParameter (.sampleRate rate))
  match h.denominator.degree? with
  | none => throw (.degenerate .zeroDenominator)
  | some order =>
    if order < h.numerator.natDegree then
      throw (.degenerate (.improper h.numerator h.denominator))
    let k := 2.0 * rate
    let discrete (p : Poly α) := (p.substitute order k).descending order
    return (discrete h.numerator, discrete h.denominator)

end SignalCalc
