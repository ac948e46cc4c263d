import SignalCalc.Series.Basic

/-!
# Derivative, integral and root mean square

Transforms of a time history that keep its positions. Each sample of a result depends only on the
samples before it and on itself, except that the derivative at the first sample looks at the second.
-/

namespace SignalCalc.Series

section Derivative

variable {α : Type} [Sub α] [Div α]

/-- The slope of the segment between two samples. -/
def slope (a b : Sample α) : α := (b.y - a.y) / (b.x - a.x)

/-- The slopes of the segments that end at each sample, the first of them starting at `previous`. -/
def slopesAfter (previous : Sample α) : List (Sample α) → List (Sample α)
  | [] => []
  | p :: rest => ⟨p.x, slope previous p⟩ :: slopesAfter p rest

/-- The derivative: at every sample the slope of the segment that ends there, at the first sample
that of the segment that starts there, and zero if there is no segment. -/
def derivative [Zero α] (s : Series α) : Series α :=
  match s.samples with
  | first :: second :: rest =>
    ⟨⟨first.x, slope first second⟩ :: slopesAfter first (second :: rest)⟩
  | samples => ⟨samples.map fun p => { p with y := 0 }⟩

end Derivative

section Integral

variable {α : Type} [Add α] [Sub α] [Mul α] [OfScientific α]

/-- The area below the segment between two samples. -/
def trapezoid (a b : Sample α) : α := 0.5 * (b.y + a.y) * (b.x - a.x)

/-- The areas up to each sample, given the sample and the area before them. -/
def areasAfter (previous : Sample α) (area : α) : List (Sample α) → List (Sample α)
  | [] => []
  | p :: rest =>
    let area := area + trapezoid previous p
    ⟨p.x, area⟩ :: areasAfter p area rest

/-- The integral by trapezoids from the first sample on. -/
def integral [Zero α] (s : Series α) : Series α :=
  match s.samples with
  | first :: rest => ⟨⟨first.x, 0⟩ :: areasAfter first 0 rest⟩
  | [] => empty

end Integral

section RootMeanSquare

variable {α : Type} [Add α] [Mul α] [Div α] [NatCast α] [Elementary α]

/-- The running root mean squares, given the count and the sum of the squares before. -/
def rmsAfter (count : Nat) (sum : α) : List (Sample α) → List (Sample α)
  | [] => []
  | p :: rest =>
    let sum := sum + p.y * p.y
    ⟨p.x, Elementary.sqrt (sum / ((count + 1 : Nat) : α))⟩ :: rmsAfter (count + 1) sum rest

/-- At every sample the root mean square of the values up to it. -/
def rms [Zero α] (s : Series α) : Series α := ⟨rmsAfter 0 0 s.samples⟩

end RootMeanSquare

end SignalCalc.Series
