import SignalCalc.Error
import SignalCalc.Fit.PseudoInverse
import SignalCalc.Series.Basic

/-!
# Polynomial fits

The polynomial of a given order that comes nearest to a series in the sum of the squared residuals.
Its coefficients solve the normal equations, and the coefficient of determination says how much of
the spread of the values it explains.
-/

namespace SignalCalc

/-- A fitted polynomial. -/
structure PolynomialFit (α : Type) where
  order : Nat
  /-- The coefficients by ascending powers. -/
  coefficients : List α
  rSquared : α

namespace PolynomialFit

variable {α : Type} [Zero α] [One α] [Neg α] [Add α] [Sub α] [Mul α] [Div α] [NatCast α]
  [LT α] [DecidableLT α] [LE α] [DecidableLE α] [BEq α] [Elementary α]

/-- The value of a polynomial with the given coefficients. -/
def valueAt (coefficients : List α) (x : α) : α :=
  coefficients.foldr (fun c acc => acc * x + c) 0

/-- The fitted value at a position. -/
def evaluate (fit : PolynomialFit α) (x : α) : α := valueAt fit.coefficients x

/-- The fitted values at the positions of a series. -/
def series (fit : PolynomialFit α) (s : Series α) : Series α := .tabulate s.xs fit.evaluate

/-! ## The normal equations -/

/-- The powers of the positions, one column for each exponent up to the order. -/
def powerColumns (xs : List α) (order : Nat) : List (List α) :=
  (List.range (order + 1)).map fun (j : Nat) => xs.map (powInt · j)

/-- The columns of the matrix of the normal equations. -/
def normalMatrix (columns : List (List α)) : List (List α) :=
  columns.map fun u => columns.map fun v => dot v u

/-- The right-hand side of the normal equations. -/
def normalRhs (columns : List (List α)) (ys : List α) : List α := columns.map (dot · ys)

section Lengths

variable {β : Type} [Mul β]

@[simp] theorem length_powerColumns [One β] [Div β] (xs : List β) (order : Nat) :
    (powerColumns xs order).length = order + 1 := by
  simp [powerColumns]

variable [Zero β] [Add β]

@[simp] theorem length_normalMatrix (columns : List (List β)) :
    (normalMatrix columns).length = columns.length := by
  simp [normalMatrix]

@[simp] theorem length_normalRhs (columns : List (List β)) (ys : List β) :
    (normalRhs columns ys).length = columns.length := by
  simp [normalRhs]

end Lengths

/-! ## The quality of a fit -/

/-- The sum of the squared residuals. -/
def residualSum (coefficients : List α) (s : Series α) : α :=
  s.samples.foldl (fun sum p =>
    let residual := p.y - valueAt coefficients p.x
    sum + residual * residual) 0

/-- The sum of the squared distances from the mean. -/
def spread (s : Series α) : α :=
  let mean := s.meanY?.getD 0
  s.samples.foldl (fun sum p => sum + (p.y - mean) * (p.y - mean)) 0

/-- The least positive normal double. -/
def leastNormal : α := 1 / ((Nat.pow 2 1022 : Nat) : α)

/-- The coefficient of determination. Values without spread are explained if no residual is left. -/
def determination (coefficients : List α) (s : Series α) : α :=
  if spread s ≤ leastNormal then
    if residualSum coefficients s ≤ roundingError then 1 else 0
  else 1 - residualSum coefficients s / spread s

/-! ## The fit -/

/-- The fit of an order by means of a way to solve the normal equations. The coefficients are counted
in 64 bits first, so the greatest order is refused before samples are asked for. There must be as
many samples as coefficients, and the equations must be finite. -/
def ofSeriesBy (solve : List (List α) → List α → List α) (s : Series α) (order : Nat) :
    Except (Error α) (PolynomialFit α) :=
  if wordBound ≤ order + 1 then .error (.orderOverflow order)
  else if s.size < order + 1 then .error (.illPosedFit order (order + 1) s.size)
  else
    let columns := powerColumns s.xs order
    let matrix := normalMatrix columns
    let rhs := normalRhs columns s.ys
    if !(matrix.all (·.all isFinite) && rhs.all isFinite) then .error (.singularMatrix order)
    else
      let coefficients := solve matrix rhs
      .ok ⟨order, coefficients, determination coefficients s⟩

/-- The fit of an order. -/
def ofSeries (s : Series α) (order : Nat) : Except (Error α) (PolynomialFit α) :=
  ofSeriesBy pseudoSolve s order

/-! ## The equation -/

/-- The term of a positive power, with its sign before it. -/
def termText [NumberText α] (power : Nat) (c : α) : String :=
  (if c < 0 then " - " else " + ") ++ NumberText.text (Elementary.abs c) ++ "*x" ++
    (if 1 < power then "^" ++ toString power else "")

/-- The equation of a fit, such as `y = 1 + 2*x - 0.5*x^2`. -/
def equation [NumberText α] (fit : PolynomialFit α) : String :=
  match fit.coefficients with
  | [] => "y = "
  | c :: cs =>
    cs.zipIdx.foldl (fun text (c, i) => text ++ termText (i + 1) c) ("y = " ++ NumberText.text c)

end PolynomialFit

end SignalCalc
