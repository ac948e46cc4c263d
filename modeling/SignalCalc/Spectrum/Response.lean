import SignalCalc.Series.Align
import SignalCalc.Spectrum.Amplitude

/-!
# Frequency response and coherence

Two signals are aligned and cut into the same blocks. The powers and cross powers of the blocks add
up bin by bin; their quotients are the frequency response and the coherence.
-/

namespace SignalCalc

/-- The sums of powers at one bin. -/
@[ext] structure BinPowers (α : Type) where
  input : α
  output : α
  cross : Cplx α

namespace BinPowers

variable {α : Type} [Zero α] [One α] [Neg α] [Add α] [Sub α] [Mul α] [Div α] [LT α] [DecidableLT α]
  [BEq α] [Elementary α]

instance : Zero (BinPowers α) := ⟨⟨0, 0, 0⟩⟩

instance : Add (BinPowers α) :=
  ⟨fun p q => ⟨p.input + q.input, p.output + q.output, p.cross + q.cross⟩⟩

/-- The powers of one block at a bin. -/
def of (x y : Cplx α) : BinPowers α := ⟨x.normSq, y.normSq, Spectrum.crossBin x y⟩

/-- The transfer from input to output. -/
def response (p : BinPowers α) : Cplx α := p.cross.divReal p.input

/-- The share of the output's power that the input explains, zero where there is no power. -/
def coherence (p : BinPowers α) : α :=
  let most := p.input * p.output
  if decide (0 < most) && isFinite most then clampUnit (p.cross.normSq / most) else 0

end BinPowers

/-! ## Phases -/

section Phase

variable {α : Type} [Zero α] [Neg α] [Add α] [Sub α] [Mul α] [Div α] [OfScientific α]
  [LT α] [DecidableLT α] [Elementary α]

/-- An angle in degrees. -/
def degrees (angle : α) : α := angle * (180.0 / Elementary.pi)

/-- The offset by which a phase goes on from the previous result, given the offset so far. Whole
turns are added or taken off until the step is at most half a turn. -/
def turnOffset (offset previous phase : α) : α :=
  let step := phase + offset - previous
  if (180.0 : α) < step then offset - 360.0 * Elementary.ceil ((step - 180.0) / 360.0)
  else if step < -180.0 then offset + 360.0 * Elementary.ceil ((-step - 180.0) / 360.0)
  else offset

/-- Phases that follow a result, made continuous. -/
def unwrapAfter (offset previous : α) : List α → List α
  | [] => []
  | phase :: rest =>
    let offset := turnOffset offset previous phase
    (phase + offset) :: unwrapAfter offset (phase + offset) rest

/-- Phases in degrees without jumps of more than half a turn. -/
def unwrapPhase : List α → List α
  | [] => []
  | phase :: rest => phase :: unwrapAfter 0 phase rest

end Phase

/-! ## Averages over blocks -/

/-- The sums of powers over all blocks, with the distance from one bin to the next. The constant
part is left out, so the first bin is one such distance up. -/
structure CrossSpectrum (α : Type) where
  df : α
  bins : List (BinPowers α)

/-- Gain, phase and coherence by frequency. -/
structure FrequencyResponse (α : Type) where
  /-- Decibels over frequencies. -/
  amplitude : Series α
  /-- Degrees over frequencies. -/
  phase : Series α
  coherence : Series α

variable {α : Type} [Zero α] [One α] [Neg α] [Add α] [Sub α] [Mul α] [Div α] [NatCast α]
  [OfScientific α] [Max α] [LT α] [DecidableLT α] [LE α] [DecidableLE α] [BEq α] [Elementary α]

/-- The bins of a block that count for a response. -/
def responseBins (block : List α) (window : Window) : List (Cplx α) :=
  ((Spectrum.ofBlock block window true).singleSided false).bins

/-- The powers of a pair of blocks. -/
def blockPowers (input output : List α) (window : Window) : List (BinPowers α) :=
  List.zipWith BinPowers.of (responseBins input window) (responseBins output window)

namespace CrossSpectrum

/-- The sums over a count of blocks of two signals. The blocks do not overlap, and their size is the
greatest power of two at which they fit. -/
def ofSignals (input output : Series α) (count : Nat) (window : Window) :
    Except (Error α) (CrossSpectrum α) := do
  if count = 0 then throw (.invalidParameter .noAverages)
  let (input, output) := input.align output
  let dt ← input.period
  let size := maxPowerOfTwo (input.size / count)
  if size < minBlock then throw (.insufficientData (.averages input.size count))
  let xs := input.ys
  let ys := output.ys
  let sums := (List.range count).foldl
    (fun sums k =>
      let block (signal : List α) := Series.blockAt signal (k * size) size
      List.zipWith (· + ·) sums (blockPowers (block xs) (block ys) window))
    (List.replicate (size / 2 - 1) 0)
  return ⟨1.0 / ((size : α) * dt), sums⟩

/-- A value for every bin, over the frequencies of the bins. -/
def series (s : CrossSpectrum α) (values : List α) : Series α :=
  ⟨values.zipIdx.map fun (v, k) => ⟨((k + 1 : Nat) : α) * s.df, v⟩⟩

@[simp] theorem ys_series {β : Type} [Mul β] [NatCast β] (s : CrossSpectrum β) (values : List β) :
    (s.series values).ys = values := by
  rw [series, Series.ys, List.map_map]
  exact List.zipIdx_map_fst 0 values

/-- The coherence by frequency. -/
def coherence (s : CrossSpectrum α) : Series α := s.series (s.bins.map BinPowers.coherence)

/-- The response by frequency, with the phase as it is or made continuous. -/
def response (s : CrossSpectrum α) (wrapped : Bool) : FrequencyResponse α :=
  let responses := s.bins.map BinPowers.response
  let phases := responses.map fun h => degrees h.arg
  { amplitude := s.series (responses.map fun h => 20.0 * Elementary.log10 h.norm)
    phase := s.series (if wrapped then phases else unwrapPhase phases)
    coherence := s.coherence }

end CrossSpectrum

/-- The frequency response from one signal to another. -/
def frequencyResponse (input output : Series α) (count : Nat) (window : Window) (wrapped : Bool) :
    Except (Error α) (FrequencyResponse α) := do
  return (← CrossSpectrum.ofSignals input output count window).response wrapped

/-- The coherence of two signals. -/
def coherence (input output : Series α) (count : Nat) (window : Window) :
    Except (Error α) (Series α) := do
  return (← CrossSpectrum.ofSignals input output count window).coherence

end SignalCalc
