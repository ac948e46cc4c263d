import SignalCalc.Decimal.Basic

/-!
# Rounding a double to a decimal grid

The exact value of a double is rounded to a count of places after the point or of significant
digits; a half goes to the even neighbour.
-/

namespace SignalCalc.Decimal

/-- The numerator of `significand * 2 ^ exponent`. -/
def numerator (significand : Nat) (exponent : Int) : Nat := significand * powerPart 2 exponent

/-- The denominator of `significand * 2 ^ exponent`. -/
def denominator (exponent : Int) : Nat := powerPart 2 (-exponent)

/-- The value rounded to a count of places after the point. -/
def toPlaces (places significand : Nat) (exponent : Int) : Decimal :=
  nearest (numerator significand exponent) (denominator exponent) (-places)

/-- The value rounded to a count of significant digits. -/
def toSignificant (digits significand : Nat) (exponent : Int) : Decimal :=
  if significand = 0 then ⟨0, 0⟩
  else
    let num := numerator significand exponent
    let den := denominator exponent
    nearest num den (magnitude num den - digits)

end SignalCalc.Decimal
