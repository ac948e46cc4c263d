import SignalCalc.Error
import SignalCalc.Series.Basic
import SignalCalc.Spectrum.Bins

/-!
# Averaged amplitude spectra

A time history is cut into blocks that may overlap, and the amplitude spectra of the blocks are
averaged. They are scaled so that a sine at a bin reads its amplitude, whatever window is used.

Main definitions: `blockCount` says how many blocks fit, `amplitudes` reads one block, and
`Series.amplitudeSpectrum` averages.
-/

namespace SignalCalc

/-- The shortest block, which is the shortest one at which every window has gain. -/
def minBlock : Nat := 4

/-- The greatest power of two that is not above a number, zero for zero. -/
def maxPowerOfTwo (n : Nat) : Nat := if n = 0 then 0 else Nat.pow 2 n.log2

section Blocks

variable {α : Type} [Zero α] [One α] [Mul α] [NatCast α] [LT α] [DecidableLT α] [Elementary α]

/-- The nearest number from zero to one. An undefined number stays undefined. -/
def clampUnit (x : α) : α := if x < 0 then 0 else if 1 < x then 1 else x

/-- The count of samples that a block shares with the next one. It is less than the block. -/
def overlapSamples (size : Nat) (overlap : α) : Nat :=
  min (Elementary.roundToNat (clampUnit overlap * (size : α))) (size - 1)

/-- The count of blocks of a size, with an overlap, that fit into a count of samples. -/
def blockCount (size : Nat) (overlap : α) (samples : Nat) : Nat :=
  if size = 0 ∨ samples < size then 0
  else
    let shared := overlapSamples size overlap
    (samples - shared) / (size - shared)

end Blocks

/-- How a time history is cut into blocks and how these are weighted. -/
structure SpectrumOptions (α : Type) where
  window : Window
  /-- The samples in a block, by default the greatest power of two that fits. -/
  blockSize? : Option Nat
  /-- The part of a block that it shares with the next one. -/
  overlap : α
  subtractMean : Bool

/-- One Hann window over the whole history, the mean taken off. -/
def SpectrumOptions.default {α : Type} [Zero α] : SpectrumOptions α := ⟨.hann, none, 0, true⟩

section Amplitudes

variable {α : Type} [Zero α] [One α] [Neg α] [Add α] [Sub α] [Mul α] [Div α] [NatCast α]
  [OfScientific α] [LT α] [DecidableLT α] [LE α] [DecidableLE α] [BEq α] [Elementary α]

/-- The amplitudes of the sines in a block, from the constant part up. -/
def amplitudes (block : List α) (window : Window) (subtractMean : Bool) : List α :=
  let n := block.length
  let half := (Spectrum.ofBlock block window subtractMean).singleSided true
  let scale := 1.0 / ((n : α) * window.coherentGain n)
  half.magnitudes.zipIdx.map fun (magnitude, k) =>
    if k = 0 then magnitude * scale else 2.0 * magnitude * scale

/-- Refuses a spacing that is not a positive number. -/
def checkSpacing (dt : α) : Except (Error α) α :=
  if isFinite dt && decide (0 < dt) then .ok dt else .error (.invalidParameter (.spacing dt))

namespace Series

/-- The spacing of a history that is to be transformed. -/
def period (s : Series α) : Except (Error α) α :=
  match s.spacing? with
  | none => .error (.insufficientData (.transformSpacing s.size))
  | some dt => checkSpacing dt

/-- The size of the blocks of a history, if it can be cut that way. -/
def blockSize (s : Series α) (options : SpectrumOptions α) : Except (Error α) Nat := do
  let size ← match options.blockSize? with
    | some size => pure size
    | none =>
      if s.size < minBlock then
        throw (.insufficientData (.transformBlock minBlock s.size))
      else pure (maxPowerOfTwo s.size)
  if size < minBlock ∨ s.size < size then
    throw (.invalidParameter (.blockSize size minBlock s.size))
  return size

/-- The samples from an index on. -/
def blockAt (ys : List α) (start size : Nat) : List α := (ys.drop start).take size

/-- The averaged amplitude spectrum: amplitudes over frequencies, from the constant part up. -/
def amplitudeSpectrum (s : Series α) (options : SpectrumOptions α) :
    Except (Error α) (Series α) := do
  let dt ← s.period
  let size ← s.blockSize options
  if options.window.coherentGain size ≤ (0 : α) then
    throw (.invalidParameter (.noGain options.window size))
  if !(decide (0 ≤ options.overlap) && decide (options.overlap < 1)) then
    throw (.invalidParameter (.overlap options.overlap))
  let count := blockCount size options.overlap s.size
  let step := size - overlapSamples size options.overlap
  let ys := s.ys
  let sums := (List.range count).foldl
    (fun sums k =>
      let block := blockAt ys (k * step) size
      List.zipWith (· + ·) sums (amplitudes block options.window options.subtractMean))
    (List.replicate (size / 2) 0)
  let df := 1.0 / ((size : α) * dt)
  return ⟨sums.zipIdx.map fun (sum, k) => ⟨(k : α) * df, sum / (count : α)⟩⟩

end Series

end Amplitudes

end SignalCalc
