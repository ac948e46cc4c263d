/-!
# JSON values

The values in which settings are kept. A number is a natural number below `2 ^ 64` where it is
written as one, and a number of the computation otherwise. A string whose escapes do not denote a
text is kept as a broken one, so that it can stand where it is not used.
-/

namespace SignalCalc

/-- A JSON value over a type of numbers. Keys of objects are broken, `none`, like strings. -/
inductive Json (α : Type) where
  | null
  | bool (b : Bool)
  | natural (n : Nat)
  | real (x : α)
  | string (s : String)
  | brokenString
  | array (items : List (Json α))
  | object (members : List (Option String × Json α))

end SignalCalc
