import SignalCalc.Error
import SignalCalc.Series.Basic

/-!
# Series from separate columns
-/

namespace SignalCalc.Series

variable {α : Type} [Zero α] [BEq α]

/-- The series with the given columns, which must be of one length. -/
def ofColumns (xs ys : List α) : Except (Error α) (Series α) :=
  match ofColumns? xs ys with
  | some s => .ok s
  | none => .error (.lengthMismatch xs.length ys.length)

end SignalCalc.Series
