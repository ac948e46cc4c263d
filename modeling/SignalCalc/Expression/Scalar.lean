import SignalCalc.Expression.Interpretation

/-!
# Numbers alone as values

The plainest meaning of an expression: every dataset stands for one number, and so does the variable.
A series taken sample by sample and a polynomial at a number both come down to it.
-/

namespace SignalCalc

variable {α : Type} [Zero α] [Neg α] [Add α] [Sub α] [Mul α] [Div α] [BEq α] [Elementary α]

/-- Tokens as numbers, given those that the datasets and the variable stand for. -/
def Interpretation.scalar (dataset : Nat → α) (s : α) : Interpretation α α where
  number v := v
  dataset i _ := .ok (dataset i)
  laplace _ := .ok s
  negate v := .ok (-v)
  binary o a b := .ok (o.apply a b)
  builtin f text v :=
    match (f.onNumber? : Option (α → α)) with
    | some g => .ok (g v)
    | none => .error (.notSeries text)

end SignalCalc
