import SignalCalc.Filter.Digital
import SignalCalc.Series.Basic

/-!
# Filtering a time history

The rate of the filter comes from the average spacing of the history, and the filter starts in the
steady state of the first sample.
-/

namespace SignalCalc

variable {α : Type} [Zero α] [One α] [Neg α] [Add α] [Sub α] [Mul α] [Div α] [NatCast α]
  [OfScientific α] [LT α] [DecidableLT α] [LE α] [DecidableLE α] [BEq α] [Elementary α]

namespace DigitalFilter

/-- The outputs for a list of samples when the first one has gone on for ever before. -/
def filterList (f : DigitalFilter α) : List α → List α
  | [] => []
  | y :: ys => ((f.settle y).applyAll (y :: ys)).1

/-- A history run through a filter. -/
def filterSeries (f : DigitalFilter α) (s : Series α) : Series α :=
  ⟨List.zipWith (fun p y => { p with y }) s.samples (f.filterList s.ys)⟩

end DigitalFilter

namespace Series

/-- The sample rate of a history that is to be filtered. -/
def sampleRate (s : Series α) : Except (Error α) α :=
  match s.spacing? with
  | none => .error (.insufficientData (.filterSpacing s.size))
  | some dt =>
    if isFinite dt && decide (0 < dt) then .ok (1.0 / dt)
    else .error (.invalidParameter (.spacing dt))

/-- A history filtered by the given settings; if they ask for it, once more from its end. -/
def filtered (s : Series α) (settings : FilterSettings α) : Except (Error α) (Series α) := do
  let f ← DigitalFilter.ofSettings (← s.sampleRate) settings
  let forward := f.filterSeries s
  return if settings.phaseless then (f.filterSeries forward.reverse).reverse else forward

end Series

end SignalCalc
