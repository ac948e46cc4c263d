import SignalCalc.Series.Align

/-!
# Looking up a value between the samples

The value of a series at a position is that of a sample that matches it, or else lies on the segment
between the two samples around it. The place is found by bisection, which supposes ascending
positions.
-/

namespace SignalCalc

/-- Bisection over `size` indices from `base` on, `size` positive: the index after the last one at
which `below` holds, or `base`, if `below` holds up to some index and fails from there on. -/
def bisectFrom (below : Nat → Bool) (base size : Nat) : Nat :=
  if h : 1 < size then
    let half := size / 2
    bisectFrom below (if below (base + half) then base + half else base) (size - half)
  else if below base then base + 1 else base
termination_by size
decreasing_by omega

/-- The number of indices below `size` at which `below` holds, if they come before all others. -/
def bisect (below : Nat → Bool) (size : Nat) : Nat :=
  if size = 0 then 0 else bisectFrom below 0 size

/-- A value that was looked up, and whether a sample stands at the position. -/
structure Lookup (α : Type) where
  y : α
  onSample : Bool

namespace Series

variable {α : Type} [One α] [Add α] [Sub α] [Mul α] [Div α] [OfScientific α] [Max α]
  [LT α] [DecidableLT α] [LE α] [DecidableLE α] [Elementary α]

/-- The value at `x` on the line through two samples. -/
def interpolate (a b : Sample α) (x : α) : α := a.y + (b.y - a.y) * (x - a.x) / (b.x - a.x)

/-- Whether a position lies between the first and the last one. -/
def spans (s : Series α) (x : α) : Bool :=
  match s.samples.head?, s.samples.getLast? with
  | some first, some last => first.x ≤ x && x ≤ last.x
  | _, _ => false

/-- The index of the first sample that is not below a position. -/
def place (s : Series α) (x : α) : Nat :=
  bisect (fun i => s.samples[i]?.any fun p => p.x < x) s.size

/-- The value at a position, none outside the series. The sample at the place of the position is
tried first, then the one before it, and then the segment between the two. -/
def yAt? (s : Series α) (x : α) : Option (Lookup α) :=
  if s.spans x then
    let i := s.place x
    let next := s.samples[i]?
    let previous := if i = 0 then none else s.samples[i - 1]?
    match next, previous with
    | some b, some a =>
      if xMatches b.x x then some ⟨b.y, true⟩
      else if xMatches a.x x then some ⟨a.y, true⟩
      else some ⟨interpolate a b x, false⟩
    | some b, none => if xMatches b.x x then some ⟨b.y, true⟩ else none
    | none, some a => if xMatches a.x x then some ⟨a.y, true⟩ else none
    | none, none => none
  else none

end Series

end SignalCalc
