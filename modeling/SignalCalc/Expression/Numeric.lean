import SignalCalc.Expression.Interpretation
import SignalCalc.Series.Align
import SignalCalc.Series.Calculus
import SignalCalc.Spectrum.Amplitude

/-!
# Numbers and series as values

A numeric expression is a number or a series. An operator acts on two series where they have
positions in common, and on a number and a series sample by sample. Two series have operators of
their own, and a power is computed of their samples as of numbers.
-/

namespace SignalCalc

/-- A series under the name by which expressions refer to it. -/
structure Dataset (α : Type) where
  name : String
  series : Series α

/-- The value of a numeric expression. -/
inductive Value (α : Type) where
  | number (value : α)
  | series (series : Series α)

variable {α : Type} [Zero α] [One α] [Neg α] [Add α] [Sub α] [Mul α] [Div α] [NatCast α]
  [OfScientific α] [Max α] [LT α] [DecidableLT α] [LE α] [DecidableLE α] [BEq α] [Elementary α]

namespace Value

/-- The value with its sign changed. -/
def negate : Value α → Value α
  | number v => number (-v)
  | series s => series (s.mapY (- ·))

/-- An operator applied to two values. -/
def binary (o : Operator) : Value α → Value α → Value α
  | number a, number b => number (o.apply a b)
  | number a, series s => series (s.mapY (o.apply a ·))
  | series s, number b => series (s.mapY (o.apply · b))
  | series s, series t => series (s.combine t (o.onSamples?.getD o.apply))

end Value

/-- A function applied to a series. Functions of one value act on every sample. -/
def Builtin.onSeries (f : Builtin) (s : Series α) : Except (Error α) (Series α) :=
  match f with
  | fft => s.amplitudeSpectrum .default
  | derivative => .ok s.derivative
  | integral => .ok s.integral
  | rms => .ok s.rms
  | _ => .ok (f.onSamples?.elim s s.mapY)

/-- A function applied to a value. The text names it in the error. -/
def Builtin.onValue (f : Builtin) (text : String) : Value α → Except (Error α) (Value α)
  | .number v =>
    match (f.onNumber? : Option (α → α)) with
    | some g => .ok (.number (g v))
    | none => .error (.notSeries text)
  | .series s => return .series (← f.onSeries s)

/-- Tokens as numbers and series. The positions of every dataset that is referred to are multiplied
by the factor. -/
def Interpretation.numeric (datasets : List (Dataset α)) (factor : α) :
    Interpretation α (Value α) where
  number v := .number v
  dataset i text :=
    match datasets[i]? with
    | some d => .ok (.series (d.series.scaleX factor))
    | none => .error (.unknownDataset text)
  laplace text := .error (.unknownDataset text)
  negate v := .ok v.negate
  binary o a b := .ok (Value.binary o a b)
  builtin f text v := f.onValue text v

end SignalCalc
