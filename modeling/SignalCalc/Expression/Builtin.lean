import SignalCalc.Elementary

/-!
# Built-in functions

Most functions act on one value at a time, and on a series value by value. The others need a whole
series.
-/

namespace SignalCalc

/-- The functions that expressions can call. -/
inductive Builtin where
  | sin
  | cos
  | tan
  | asin
  | acos
  | atan
  | ln
  | log10
  | exp
  | abs
  | sqrt
  /-- The amplitude spectrum. -/
  | fft
  | derivative
  | integral
  /-- The running root mean square. -/
  | rms
deriving DecidableEq, Repr

namespace Builtin

/-- The names of the functions, in lowercase. -/
def names : List (String × Builtin) :=
  [("sin", sin), ("cos", cos), ("tan", tan), ("asin", asin), ("acos", acos), ("atan", atan),
    ("ln", ln), ("log", ln), ("log10", log10), ("exp", exp), ("abs", abs), ("sqrt", sqrt),
    ("fft", fft), ("ddt", derivative), ("derivative", derivative), ("int", integral),
    ("integral", integral), ("rms", rms)]

/-- The function with a name in lowercase. -/
def ofName? (name : String) : Option Builtin := names.lookup name

/-- What a function does to one value, none if it needs a series. -/
def onNumber? {α : Type} [Elementary α] : Builtin → Option (α → α)
  | sin => some Elementary.sin
  | cos => some Elementary.cos
  | tan => some Elementary.tan
  | asin => some Elementary.asin
  | acos => some Elementary.acos
  | atan => some Elementary.atan
  | ln => some Elementary.ln
  | log10 => some Elementary.log10
  | exp => some Elementary.exp
  | abs => some Elementary.abs
  | sqrt => some Elementary.sqrt
  | fft | derivative | integral | rms => none

/-- What a function does to every sample of a series, none if it is not one that acts on samples one
by one. -/
def onSamples? {α : Type} [Elementary α] : Builtin → Option (α → α)
  | fft | derivative | integral | rms => none
  | sin => some Elementary.sin
  | cos => some Elementary.cos
  | tan => some Elementary.tan
  | asin => some Elementary.asin
  | acos => some Elementary.acos
  | atan => some Elementary.atan
  | ln => some Elementary.ln
  | log10 => some Elementary.log10
  | exp => some Elementary.exp
  | abs => some Elementary.abs
  | sqrt => some Elementary.sqrt

/-- A function does to samples what it does to numbers. -/
@[simp] theorem onSamples?_eq {α : Type} [Elementary α] (f : Builtin) :
    (f.onSamples? : Option (α → α)) = f.onNumber? := by
  cases f <;> rfl

end Builtin

end SignalCalc
