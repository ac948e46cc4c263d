import SignalCalc.Series.Basic

/-!
# Combining series at common positions

Two series combine only where their positions match. Both are walked in ascending order, and of two
positions that do not match the smaller one is passed over; the samples that are left come in pairs.
-/

namespace SignalCalc

section Matching

variable {α : Type} [One α] [Sub α] [Mul α] [OfScientific α] [Max α] [LE α] [DecidableLE α]
  [Elementary α]

/-- How far apart two matching positions may be, relative to the greater of their magnitudes and
one. -/
def matchTolerance : α := 1e-9

/-- Whether two positions count as the same. -/
def xMatches (a b : α) : Bool :=
  Elementary.abs (a - b) ≤
    matchTolerance * max (max (Elementary.abs a) (Elementary.abs b)) (1 : α)

end Matching

namespace Series

variable {α : Type} [One α] [Sub α] [Mul α] [OfScientific α] [Max α] [LT α] [DecidableLT α]
  [LE α] [DecidableLE α] [Elementary α]

/-- The pairs of samples at matching positions. -/
def commonSamples : List (Sample α) → List (Sample α) → List (Sample α × Sample α)
  | a :: as, b :: bs =>
    if xMatches a.x b.x then (a, b) :: commonSamples as bs
    else if a.x < b.x then commonSamples as (b :: bs)
    else commonSamples (a :: as) bs
  | _, _ => []
termination_by as bs => as.length + bs.length

@[simp] theorem commonSamples_nil_left (bs : List (Sample α)) : commonSamples [] bs = [] := by
  unfold commonSamples
  rfl

@[simp] theorem commonSamples_nil_right (as : List (Sample α)) : commonSamples as [] = [] := by
  cases as <;> simp [commonSamples]

/-- Both series at the positions that they have in common, which are those of the first. -/
def align (s t : Series α) : Series α × Series α :=
  let common := commonSamples s.samples t.samples
  (⟨common.map (·.1)⟩, ⟨common.map fun (a, b) => ⟨a.x, b.y⟩⟩)

/-- The values of two series combined where they have a position in common. -/
def combine (s t : Series α) (f : α → α → α) : Series α :=
  ⟨(commonSamples s.samples t.samples).map fun (a, b) => ⟨a.x, f a.y b.y⟩⟩

/-- Aligned series have the same positions. -/
theorem xs_align (s t : Series α) : (s.align t).1.xs = (s.align t).2.xs := by
  simp [align, xs, Function.comp_def]

/-- A combined series is made of the aligned values. -/
theorem ys_combine (s t : Series α) (f : α → α → α) :
    (s.combine t f).ys = List.zipWith f (s.align t).1.ys (s.align t).2.ys := by
  simp [combine, align, ys, Function.comp_def, List.zipWith_map, List.zipWith_self]

end Series

end SignalCalc
