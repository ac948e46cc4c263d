import SignalCalc.Decimal.Shortest

/-!
# The text of a number

Messages, polynomials and fitted equations show a number by the fewest digits that read back to it,
never with an exponent, and with a point only where digits follow it. A negative zero keeps its
sign.
-/

namespace SignalCalc

/-- Numbers that can be shown. -/
class NumberText (α : Type) where
  text : α → String

/-- A text with a minus sign in front of it where one is due. -/
def withSign (negative : Bool) (s : String) : String := if negative then "-" ++ s else s

/-- The text of the value of a double. -/
def Binary64.text : Binary64 → String
  | .undefined => "NaN"
  | .infinite negative => withSign negative "inf"
  | .finite negative significand exponent =>
    withSign negative (Decimal.shortest significand exponent).positional

instance : NumberText Float := ⟨fun x => (Binary64.ofFloat x).text⟩

end SignalCalc
