import SignalCalc.Decimal.Text
import SignalCalc.Poly.Basic

/-!
# The canonical text of a polynomial

Terms come by descending powers, zero coefficients are left out, and a coefficient of one is not
written before a power of `s`: `s^2+3*s+2`, `-s+0.5`. The zero polynomial is `0`. A minus sign before
the first power counts for the whole term here, while expressions take it into the power.
-/

namespace SignalCalc.Poly

variable {α : Type} [Zero α] [One α] [LT α] [DecidableLT α] [BEq α] [Elementary α] [NumberText α]

/-- The text of a power of `s`, for a positive exponent. -/
def powerText (n : Nat) : String := if n = 1 then "s" else "s^" ++ toString n

/-- The text of a term without its sign. -/
def termText (n : Nat) (magnitude : α) : String :=
  if n = 0 then NumberText.text magnitude
  else if magnitude == 1 then powerText n
  else NumberText.text magnitude ++ "*" ++ powerText n

/-- The text of a term. A plus sign stands only between terms. -/
def signedTerm (first : Bool) (n : Nat) (c : α) : String :=
  (if c < 0 then "-" else if first then "" else "+") ++ termText n (Elementary.abs c)

/-- The canonical text. -/
def text (p : Poly α) : String :=
  let terms := (p.coeffs.zipIdx.filter fun (c, _) => !(c == 0)).reverse
  match terms with
  | [] => "0"
  | (c, n) :: rest =>
    rest.foldl (fun s (c, n) => s ++ signedTerm false n c) (signedTerm true n c)

end SignalCalc.Poly
