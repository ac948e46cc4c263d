import SignalCalc.Spectrum.Fourier
import SignalCalc.Spectrum.Window

/-!
# Spectra

A `Spectrum` is the list of the bins of a transform. There is no frequency axis here: a bin is known
by its number only.
-/

namespace SignalCalc

/-- The bins of a transform, from the constant part up. -/
@[ext] structure Spectrum (α : Type) where
  bins : List (Cplx α)

namespace Spectrum

variable {α : Type} [Zero α] [One α] [Neg α] [Add α] [Sub α] [Mul α] [Div α] [NatCast α]
  [OfScientific α] [LT α] [DecidableLT α] [Elementary α]

/-- A real signal in place of bins. -/
def ofReal (signal : List α) : Spectrum α := ⟨signal.map Cplx.ofReal⟩

def size (s : Spectrum α) : Nat := s.bins.length

def isEmpty (s : Spectrum α) : Bool := s.bins.isEmpty

/-- The forward transform, not scaled. -/
def transform (s : Spectrum α) : Spectrum α := ⟨Fourier.transform s.bins⟩

/-- The first bins. -/
def take (s : Spectrum α) (n : Nat) : Spectrum α := ⟨s.bins.take n⟩

/-- All bins but the first. -/
def skipFirst (s : Spectrum α) : Spectrum α := ⟨s.bins.drop 1⟩

/-- The half with positive frequencies, without the bin in the middle, and with the constant part
only if it is kept. -/
def singleSided (s : Spectrum α) (keepConstant : Bool) : Spectrum α :=
  let half := s.take (s.size / 2)
  if keepConstant then half else half.skipFirst

/-- The lower half of the bins is kept, with the constant or without it. -/
theorem size_singleSided {β : Type} (s : Spectrum β) (keepConstant : Bool) :
    (s.singleSided keepConstant).size = s.size / 2 - if keepConstant then 0 else 1 := by
  cases keepConstant <;>
    simp only [singleSided, take, skipFirst, size, List.length_drop, List.length_take, if_true,
      Bool.false_eq_true, if_false] <;> omega

/-- The distances of the bins from zero. -/
def magnitudes (s : Spectrum α) : List α := s.bins.map Cplx.norm

/-- The squared distances of the bins from zero. -/
def power (s : Spectrum α) : List α := s.bins.map Cplx.normSq

/-- The cross power of two bins: the conjugate of the first times the second. -/
def crossBin (a b : Cplx α) : Cplx α := a.conj * b

/-- The cross power of two spectra, as far as both have bins. -/
def crossPower (s t : Spectrum α) : Spectrum α := ⟨List.zipWith crossBin s.bins t.bins⟩

/-! ## The spectrum of a block -/

/-- A signal less its mean. A mean that is zero but for rounding is left in place. -/
def removeMean (signal : List α) : List α :=
  let mean := total signal / (signal.length : α)
  if 1e-12 < Elementary.abs mean then signal.map (· - mean) else signal

/-- The spectrum of a weighted block of a signal, with the mean taken off first if asked for. -/
def ofBlock (signal : List α) (window : Window) (subtractMean : Bool) : Spectrum α :=
  let signal := if subtractMean then removeMean signal else signal
  (ofReal (window.apply signal)).transform

omit [One α] [Mul α] in
@[simp] theorem length_removeMean (signal : List α) :
    (removeMean signal).length = signal.length := by
  simp only [removeMean]
  split
  · exact List.length_map _
  · rfl

/-- A block has as many bins as samples. -/
theorem size_ofBlock (signal : List α) (window : Window) (subtractMean : Bool) :
    (ofBlock signal window subtractMean).size = signal.length := by
  cases subtractMean <;> simp [ofBlock, ofReal, transform, size, Window.apply]

end Spectrum

end SignalCalc
