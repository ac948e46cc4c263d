import SignalCalc.Elementary

/-!
# Window functions

A window weights the samples of a block before it is transformed. Its coherent gain, the mean of its
weights, is what an amplitude read from the transform has to be divided by.
-/

namespace SignalCalc

/-- The shapes of windows. -/
inductive Window where
  /-- All samples count alike. -/
  | uniform
  | hann
  | hamming
  /-- A sum of five cosines that reads amplitudes well between bins. -/
  | flatTop
  /-- A decay to one hundredth at the last sample, for responses that die away. -/
  | exponential
deriving DecidableEq, Repr, Inhabited

namespace Window

/-- All windows, in the order in which they are offered. -/
def all : List Window := [uniform, hann, hamming, flatTop, exponential]

/-- The name in settings. -/
def name : Window → String
  | uniform => "Uniform"
  | hann => "Hann"
  | hamming => "Hamming"
  | flatTop => "FlatTop"
  | exponential => "Exponential"

/-- The window with a name. -/
def ofName? (name : String) : Option Window := all.find? (·.name == name)

/-- The name that is shown. -/
def label : Window → String
  | uniform => "Uniform"
  | hann => "Hann"
  | hamming => "Hamming"
  | flatTop => "Flat Top"
  | exponential => "Exponential"

variable {α : Type} [Zero α] [One α] [Neg α] [Add α] [Sub α] [Mul α] [Div α] [NatCast α]
  [OfScientific α] [Elementary α]

/-- The phase of sample `i` in a block of `n` samples: one turn from the first to the last. -/
def phase (i n : Nat) : α := 2.0 * Elementary.pi * (i : α) / ((n - 1 : Nat) : α)

/-- The weight of sample `i` in a block of `n` samples. A single sample has full weight. -/
def weight (w : Window) (i n : Nat) : α :=
  if n < 2 then 1
  else
    let phase : α := phase i n
    match w with
    | uniform => 1
    | hann => 0.5 * (1.0 - Elementary.cos phase)
    | hamming => 0.54 - 0.46 * Elementary.cos phase
    | flatTop =>
      0.21557895 - 0.41663158 * Elementary.cos phase + 0.277263158 * Elementary.cos (2.0 * phase)
        - 0.083578947 * Elementary.cos (3.0 * phase) + 0.006947368 * Elementary.cos (4.0 * phase)
    | exponential => Elementary.exp (Elementary.ln 0.01 * (i : α) / ((n - 1 : Nat) : α))

/-- The mean weight over a block. -/
def coherentGain (w : Window) (n : Nat) : α :=
  if n = 0 then 1 else total ((List.range n).map fun i => w.weight i n) / (n : α)

/-- The weighted samples of a block. -/
def apply (w : Window) (block : List α) : List α :=
  block.zipIdx.map fun (y, i) => y * w.weight i block.length

end Window

end SignalCalc
