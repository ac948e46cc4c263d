import SignalCalc.Expression.Interpretation

/-!
# Polynomials as values

A symbolic expression is a polynomial in `s`. Division, powers and functions need constants where a
polynomial would not result, and no product exceeds the highest degree.
-/

namespace SignalCalc

variable {α : Type} [Zero α] [One α] [Neg α] [Add α] [Sub α] [Mul α] [Div α] [NatCast α]
  [LT α] [DecidableLT α] [BEq α] [Elementary α]

namespace Poly

/-- The number that a polynomial is everywhere, or else the reason given for wanting one. -/
def constOr (p : Poly α) (otherwise : NotPolynomial α) : Except (Error α) α :=
  match p.const? with
  | some c => .ok c
  | none => .error (.notPolynomial otherwise)

/-- Refuses a polynomial above the highest degree. -/
def checkDegree (p : Poly α) : Except (Error α) (Poly α) :=
  if maxDegree < p.natDegree then .error (.notPolynomial (.degree p.natDegree)) else .ok p

/-- A quotient by a constant, as the product with its reciprocal. -/
def divide (p q : Poly α) : Except (Error α) (Poly α) := do
  let c ← q.constOr (.divisor q)
  if c == 0 || !isFinite c then throw (.notPolynomial (.quotient p c))
  return p.scale (1 / c)

/-- A power with a constant exponent: of a number any, of a proper polynomial a natural one that
keeps to the highest degree. -/
def power (p q : Poly α) : Except (Error α) (Poly α) := do
  let e ← q.constOr (.exponent q)
  match p.const? with
  | some base => return const (Elementary.pow base e)
  | none =>
    if decide (e < 0) || !(e - Elementary.floor e == 0) then throw (.notPolynomial (.power p e))
    let n := Elementary.roundToNat e
    if maxDegree < p.natDegree * n then throw (.notPolynomial (.powerDegree p e))
    return p.pow n

/-- An operator applied to two polynomials. -/
def binary (o : Operator) (p q : Poly α) : Except (Error α) (Poly α) :=
  match o with
  | .add => .ok (p + q)
  | .subtract => .ok (p - q)
  | .multiply => (p * q).checkDegree
  | .divide => p.divide q
  | .modulo => .error (.notPolynomial (.remainder p q))
  | .power => p.power q

/-- A function of a constant. The text names the function in errors. -/
def builtin (f : Builtin) (text : String) (p : Poly α) : Except (Error α) (Poly α) := do
  let c ← p.constOr (.argument text p)
  match (f.onNumber? : Option (α → α)) with
  | some g => return const (g c)
  | none => throw (.notPolynomial (.seriesFunction text c))

end Poly

/-- Tokens as polynomials. -/
def Interpretation.symbolic : Interpretation α (Poly α) where
  number v := Poly.const v
  dataset _ text := .error (.notPolynomial (.dataset text))
  laplace _ := .ok Poly.s
  negate p := .ok (-p)
  binary := Poly.binary
  builtin := Poly.builtin

end SignalCalc
