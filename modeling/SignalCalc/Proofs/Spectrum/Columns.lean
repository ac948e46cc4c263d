import SignalCalc.Proofs.Series.Columns
import SignalCalc.Proofs.Spectrum.Coherence

/-!
# Spectra stored as two columns

The columns of a spectrum come from different loops: the frequencies from a count of bins, the
values from sums over blocks that are as long as the list of zeros they start with. The blocks are
slices of the values of a series, and their bins are added as far as there are sums.

The loops never leave a column, and each block has as many bins as there are sums
(`foldlM_sums`, `foldlM_powers`). So the columns are those of the spectra of series, whose own
columns cannot differ in length, and a spectrum that is refused is refused for another reason.
-/

namespace SignalCalc

namespace Series

variable {α : Type} [Zero α] [BEq α] {s t : Series α}

/-- The period is one of the positions. -/
theorem period_congr [Sub α] [Div α] [NatCast α] [LT α] [DecidableLT α] (h : s.xs = t.xs) :
    s.period = t.period := by
  rw [period, period, spacing?_congr h, size_congr h]

/-- The size of a block depends on the number of samples only. -/
theorem blockSize_congr (h : s.xs = t.xs) (options : SpectrumOptions α) :
    s.blockSize options = t.blockSize options := by
  rw [blockSize, blockSize, size_congr h]

end Series

/-! ## Spectra of columns -/

/-- The sums of powers at the bins, each kind of power in a list of its own. -/
@[ext] structure PowerColumns (α : Type) where
  input : List α
  output : List α
  cross : List (Cplx α)

/-- The lists of the powers at some bins. -/
def PowerColumns.ofBins {α : Type} (bins : List (BinPowers α)) : PowerColumns α :=
  ⟨bins.map (·.input), bins.map (·.output), bins.map (·.cross)⟩

/-- The columns of a frequency response. -/
structure ResponseColumns (α : Type) where
  amplitude : Columns α
  phase : Columns α
  coherence : Columns α

/-- A frequency response as columns. -/
def FrequencyResponse.columns {α : Type} (r : FrequencyResponse α) : ResponseColumns α :=
  ⟨r.amplitude.columns, r.phase.columns, r.coherence.columns⟩

section Definitions

variable {α : Type} [Zero α] [One α] [Neg α] [Add α] [Sub α] [Mul α] [Div α] [NatCast α]
  [OfScientific α] [LT α] [DecidableLT α] [LE α] [DecidableLE α] [BEq α] [Elementary α]

/-- The sums with the powers of one more pair of blocks. -/
def PowerColumns.add (p : PowerColumns α) (x y : Spectrum α) : PowerColumns α :=
  ⟨updateBy (· + ·) p.input x.power, updateBy (· + ·) p.output y.power,
    updateBy (· + ·) p.cross (x.crossPower y).bins⟩

/-- The responses at the bins. -/
def PowerColumns.responses (p : PowerColumns α) : List (Cplx α) :=
  List.zipWith Cplx.divReal p.cross p.input

/-- The coherences at the bins. -/
def PowerColumns.coherences (p : PowerColumns α) : List α :=
  List.zipWith (fun cross (powers : α × α) => BinPowers.coherence ⟨powers.1, powers.2, cross⟩)
    p.cross (p.input.zip p.output)

namespace Columns

/-- The sums of the amplitudes of a count of blocks, a step apart. -/
def sumAmplitudes (c : Columns α) (options : SpectrumOptions α) (size step count : Nat) :
    Except (Fault α) (List α) :=
  (List.range count).foldlM (fun sums k => do
    let block ← sliceAt c.ys (k * step) size
    return updateBy (· + ·) sums (amplitudes block options.window options.subtractMean))
    (List.replicate (size / 2) 0)

/-- The averaged amplitude spectrum. -/
def amplitudeSpectrum (c : Columns α) (options : SpectrumOptions α) :
    Except (Fault α) (Columns α) := do
  let dt ← Fault.lift c.positions.period
  let size ← Fault.lift (c.positions.blockSize options)
  if options.window.coherentGain size ≤ (0 : α) then
    throw (.error (.invalidParameter (.noGain options.window size)))
  if !(decide (0 ≤ options.overlap) && decide (options.overlap < 1)) then
    throw (.error (.invalidParameter (.overlap options.overlap)))
  let count := blockCount size options.overlap c.xs.length
  let sums ← c.sumAmplitudes options size (size - overlapSamples size options.overlap) count
  let df := 1.0 / ((size : α) * dt)
  Fault.lift (ofColumns ((List.range sums.length).map fun (k : Nat) => (k : α) * df)
    (sums.map (· / (count : α))))

/-- The sums of the powers of a count of pairs of blocks of two signals. -/
def sumPowers (c d : Columns α) (window : Window) (size count : Nat) :
    Except (Fault α) (PowerColumns α) :=
  (List.range count).foldlM (fun sums k => do
    let x := Spectrum.ofBlock (← sliceAt c.ys (k * size) size) window true
    let y := Spectrum.ofBlock (← sliceAt d.ys (k * size) size) window true
    return sums.add (x.singleSided false) (y.singleSided false))
    ⟨List.replicate (size / 2 - 1) 0, List.replicate (size / 2 - 1) 0,
      List.replicate (size / 2 - 1) 0⟩

/-- The frequencies of the bins, and the sums of powers over a count of blocks. -/
def averagedSpectra [Max α] (c d : Columns α) (count : Nat) (window : Window) :
    Except (Fault α) (List α × PowerColumns α) := do
  if count = 0 then throw (.error (.invalidParameter .noAverages))
  let (input, output) ← c.align d
  let dt ← Fault.lift input.positions.period
  let size := maxPowerOfTwo (input.xs.length / count)
  if size < minBlock then
    throw (.error (.insufficientData (.averages input.xs.length count)))
  let sums ← input.sumPowers output window size count
  let df := 1.0 / ((size : α) * dt)
  return ((List.range (size / 2 - 1)).map fun (k : Nat) => ((k + 1 : Nat) : α) * df, sums)

/-- The frequency response from one signal to another. -/
def frequencyResponse [Max α] (c d : Columns α) (count : Nat) (window : Window) (wrapped : Bool) :
    Except (Fault α) (ResponseColumns α) := do
  let (frequencies, sums) ← c.averagedSpectra d count window
  let phases := sums.responses.map fun h => degrees h.arg
  let gains := sums.responses.map fun h => 20.0 * Elementary.log10 h.norm
  return {
    amplitude := ← Fault.lift (ofColumns frequencies gains)
    phase := ← Fault.lift (ofColumns frequencies (if wrapped then phases else unwrapPhase phases))
    coherence := ← Fault.lift (ofColumns frequencies sums.coherences) }

/-- The coherence of two signals. -/
def coherence [Max α] (c d : Columns α) (count : Nat) (window : Window) :
    Except (Fault α) (Columns α) := do
  let (frequencies, sums) ← c.averagedSpectra d count window
  Fault.lift (ofColumns frequencies sums.coherences)

end Columns

end Definitions

/-! ## Powers in separate lists -/

/-- The columns of values at numbered positions. -/
theorem Series.columns_zipIdx {α β : Type} (values : List β) (position : Nat → α) (value : β → α) :
    columns ⟨values.zipIdx.map fun (b, k) => ⟨position k, value b⟩⟩ =
      ⟨(List.range values.length).map position, values.map value⟩ := by
  refine Columns.ext ?_ ?_
  · rw [List.range_eq_range', ← List.zipIdx_map_snd, List.map_map, columns, xs, List.map_map]
    rfl
  · conv_rhs => rw [← List.zipIdx_map_fst 0 values]
    rw [List.map_map, columns, ys, List.map_map]
    rfl

/-- The sums over two signals in separate lists, with the frequencies of their bins. -/
def CrossSpectrum.columns {α : Type} [Mul α] [NatCast α] (s : CrossSpectrum α) :
    List α × PowerColumns α :=
  ((List.range s.bins.length).map fun (k : Nat) => ((k + 1 : Nat) : α) * s.df, .ofBins s.bins)

/-- Values for the bins make columns with the frequencies. -/
theorem CrossSpectrum.columns_series {α : Type} [Zero α] [Mul α] [NatCast α] [BEq α]
    (s : CrossSpectrum α) {values : List α} (h : values.length = s.bins.length) :
    Columns.ofColumns s.columns.1 values = .ok (s.series values).columns := by
  have hx : s.columns.1.length = values.length := by simp [columns, h]
  rw [Columns.ofColumns_eq hx, series]
  have hcolumns := Series.columns_zipIdx values (fun k => ((k + 1 : Nat) : α) * s.df) id
  rw [List.map_id, h] at hcolumns
  exact congrArg _ hcolumns.symm

/-- The responses of separate columns are those of the bins. -/
theorem PowerColumns.responses_ofBins {α : Type} [Div α] (bins : List (BinPowers α)) :
    (ofBins bins).responses = bins.map BinPowers.response := by
  simp only [responses, ofBins, List.zipWith_map, List.zipWith_self]
  rfl

/-- The coherences of separate columns are those of the bins. -/
theorem PowerColumns.coherences_ofBins {α : Type} [Zero α] [One α] [Add α] [Sub α] [Mul α] [Div α]
    [LT α] [DecidableLT α] [BEq α] (bins : List (BinPowers α)) :
    (ofBins bins).coherences = bins.map BinPowers.coherence := by
  simp only [coherences, ofBins, List.zip_map', List.zipWith_map, List.zipWith_self]

/-- One more pair of blocks, if it has a bin for every sum. -/
theorem PowerColumns.add_ofBins {α : Type} [Neg α] [Add α] [Sub α] [Mul α]
    (sums : List (BinPowers α)) {x y : Spectrum α} (hx : x.size = sums.length)
    (hy : y.size = sums.length) :
    (ofBins sums).add x y =
      ofBins (List.zipWith (· + ·) sums (List.zipWith BinPowers.of x.bins y.bins)) := by
  have hx' : x.bins.length = sums.length := hx
  have hy' : y.bins.length = sums.length := hy
  simp only [add, ofBins]
  rw [updateBy_eq_zipWith _ (by simp [Spectrum.power, hx']),
    updateBy_eq_zipWith _ (by simp [Spectrum.power, hy']),
    updateBy_eq_zipWith _ (by simp [Spectrum.crossPower, hx', hy'])]
  refine PowerColumns.ext ?_ ?_ ?_ <;>
    refine List.ext_getElem ?_ fun k h₁ h₂ => ?_ <;>
    simp [Spectrum.power, Spectrum.crossPower, BinPowers.of, hx', hy']

/-! ## Lengths -/

section Phase

variable {α : Type} [Neg α] [Add α] [Sub α] [Mul α] [Div α] [OfScientific α] [LT α]
  [DecidableLT α] [Elementary α]

/-- Unwrapping keeps the number of phases. -/
theorem length_unwrapAfter (offset previous : α) (phases : List α) :
    (unwrapAfter offset previous phases).length = phases.length := by
  induction phases generalizing offset previous with
  | nil => rfl
  | cons phase rest ih => rw [unwrapAfter, List.length_cons, List.length_cons, ih]

/-- Unwrapping keeps the number of phases from the first one on. -/
theorem length_unwrapPhase [Zero α] (phases : List α) :
    (unwrapPhase phases).length = phases.length := by
  cases phases with
  | nil => rfl
  | cons phase rest => rw [unwrapPhase, List.length_cons, List.length_cons, length_unwrapAfter]

end Phase

/-! ## Sums over blocks -/

/-- A block that fits is a slice of the values. -/
theorem Series.sliceAt_ys {α : Type} [Zero α] [BEq α] (s : Series α) {start size : Nat}
    (h : start + size ≤ s.size) :
    sliceAt s.columns.ys start size =
      (.ok (blockAt s.ys start size) : Except (Fault α) (List α)) :=
  if_pos (h.trans (s.length_ys).ge)

section Sums

variable {α : Type} [Zero α] [One α] [Neg α] [Add α] [Sub α] [Mul α] [Div α] [NatCast α]
  [OfScientific α] [LT α] [DecidableLT α] [Elementary α]

/-- A block has half as many amplitudes as samples. -/
theorem length_amplitudes (block : List α) (window : Window) (subtractMean : Bool) :
    (amplitudes block window subtractMean).length = block.length / 2 := by
  have hsize := Spectrum.size_singleSided (Spectrum.ofBlock block window subtractMean) true
  rw [Spectrum.size_ofBlock] at hsize
  simp only [amplitudes, List.length_map, List.length_zipIdx, Spectrum.magnitudes]
  exact hsize

variable [BEq α]

/-- Blocks inside a series have an amplitude for every sum. -/
theorem Series.sumAmplitudes_columns (s : Series α) (options : SpectrumOptions α)
    {size step count : Nat} (h : ∀ k < count, k * step + size ≤ s.size) :
    ∃ sums : List α, s.columns.sumAmplitudes options size step count = .ok sums ∧
      sums.length = size / 2 ∧
      sums = (List.range count).foldl (fun sums k => List.zipWith (· + ·) sums
        (amplitudes (blockAt s.ys (k * step) size) options.window options.subtractMean))
        (List.replicate (size / 2) 0) := by
  refine foldlM_related (fun (sums sums' : List α) => sums.length = size / 2 ∧ sums = sums') ?_
    ⟨List.length_replicate, rfl⟩
  rintro k hk sums _ ⟨hl, rfl⟩
  have hblock := h k (List.mem_range.1 hk)
  have hlength : (amplitudes (blockAt s.ys (k * step) size) options.window
      options.subtractMean).length = sums.length := by
    rw [length_amplitudes, length_blockAt (by rwa [length_ys]), hl]
  rw [s.sliceAt_ys hblock, ok_bind, updateBy_eq_zipWith _ hlength.ge]
  exact ⟨_, rfl, by rw [List.length_zipWith, hlength, Nat.min_self, hl], rfl⟩

/-- Pairs of blocks inside two series have powers for every sum. -/
theorem Series.sumPowers_columns (s t : Series α) (window : Window) {size count : Nat}
    (hs : ∀ k < count, k * size + size ≤ s.size) (ht : ∀ k < count, k * size + size ≤ t.size) :
    let sums : List (BinPowers α) := (List.range count).foldl
      (fun sums k => List.zipWith (· + ·) sums
        (blockPowers (blockAt s.ys (k * size) size) (blockAt t.ys (k * size) size) window))
      (List.replicate (size / 2 - 1) 0)
    s.columns.sumPowers t.columns window size count = .ok (.ofBins sums) ∧
      sums.length = size / 2 - 1 := by
  intro sums
  obtain ⟨p, hp, rfl, hl⟩ : ∃ p, s.columns.sumPowers t.columns window size count = .ok p ∧
      p = .ofBins sums ∧ sums.length = size / 2 - 1 := by
    refine foldlM_related
      (fun (p : PowerColumns α) sums => p = .ofBins sums ∧ sums.length = size / 2 - 1) ?_
      ⟨by simp [PowerColumns.ofBins], List.length_replicate⟩
    rintro k hk _ sums ⟨rfl, hl⟩
    have hk := List.mem_range.1 hk
    have hx : ((Spectrum.ofBlock (blockAt s.ys (k * size) size) window true).singleSided
        false).size = sums.length := by
      rw [Spectrum.size_singleSided, Spectrum.size_ofBlock,
        length_blockAt (by rw [length_ys]; exact hs k hk), hl]
      rfl
    have hy : ((Spectrum.ofBlock (blockAt t.ys (k * size) size) window true).singleSided
        false).size = sums.length := by
      rw [Spectrum.size_singleSided, Spectrum.size_ofBlock,
        length_blockAt (by rw [length_ys]; exact ht k hk), hl]
      rfl
    rw [s.sliceAt_ys (hs k hk), ok_bind, t.sliceAt_ys (ht k hk), ok_bind]
    refine ⟨_, rfl, PowerColumns.add_ofBins sums hx hy, ?_⟩
    rw [List.length_zipWith, blockPowers, List.length_zipWith, ← hl]
    exact (congrArg₂ (fun m n => min sums.length (min m n)) hx hy).trans (by simp)
  exact ⟨hp, hl⟩

/-! ## Spectra of the columns of a series -/

variable [LE α] [DecidableLE α]

/-- An amplitude spectrum of columns ends as that of the series. No block reaches over the end of a
column, and the frequencies are as many as the amplitudes. -/
theorem Series.columns_amplitudeSpectrum (s : Series α) (options : SpectrumOptions α) :
    s.columns.amplitudeSpectrum options =
      Fault.lift ((s.amplitudeSpectrum options).map columns) := by
  rw [Columns.amplitudeSpectrum, amplitudeSpectrum, period_congr s.xs_positions,
    blockSize_congr s.xs_positions]
  cases s.period with
  | error e => rfl
  | ok dt =>
    rw [Fault.lift_ok, ok_bind, ok_bind]
    cases hsize : s.blockSize options with
    | error e => rfl
    | ok size =>
      rw [Fault.lift_ok, ok_bind, ok_bind]
      by_cases hgain : options.window.coherentGain size ≤ (0 : α)
      · rw [if_pos hgain, if_pos hgain]
        rfl
      rw [if_neg hgain, if_neg hgain]
      by_cases hoverlap : (!(decide (0 ≤ options.overlap) && decide (options.overlap < 1))) = true
      · rw [if_pos hoverlap, if_pos hoverlap]
        rfl
      rw [if_neg hoverlap, if_neg hoverlap]
      obtain ⟨hmin, hle⟩ := le_of_blockSize hsize
      have hpos : 0 < size := Nat.lt_of_lt_of_le (by decide) hmin
      obtain ⟨sums, hs, -, rfl⟩ := s.sumAmplitudes_columns options
        (fills_blockCount hpos hle options.overlap).inside
      have hx : s.columns.xs.length = s.size := length_xs s
      dsimp only
      rw [hx, hs, ok_bind]
      rw [Columns.ofColumns_eq (by simp), pure_eq_ok, map_ok]
      exact congrArg (fun c => Fault.lift (Except.ok c)) (columns_zipIdx _ _ _).symm

/-- The powers of the blocks of columns are those of the series. -/
theorem Series.columns_averagedSpectra (s t : Series α) [Max α] (count : Nat) (window : Window) :
    s.columns.averagedSpectra t.columns count window =
      Fault.lift ((CrossSpectrum.ofSignals s t count window).map CrossSpectrum.columns) := by
  rw [Columns.averagedSpectra, CrossSpectrum.ofSignals]
  by_cases hcount : count = 0
  · rw [if_pos hcount, if_pos hcount]
    rfl
  rw [if_neg hcount, if_neg hcount, columns_align]
  dsimp only
  rw [ok_bind]
  dsimp only
  rw [period_congr (s.align t).1.xs_positions]
  cases (s.align t).1.period with
  | error e => rfl
  | ok dt =>
    have hx : (s.align t).1.columns.xs.length = (s.align t).1.size := length_xs _
    rw [Fault.lift_ok, ok_bind, ok_bind, hx]
    by_cases hsize : maxPowerOfTwo ((s.align t).1.size / count) < minBlock
    · rw [if_pos hsize, if_pos hsize]
      rfl
    rw [if_neg hsize, if_neg hsize]
    have hinside (k : Nat) (hk : k < count) :
        k * maxPowerOfTwo ((s.align t).1.size / count) +
          maxPowerOfTwo ((s.align t).1.size / count) ≤ (s.align t).1.size := by
      calc k * maxPowerOfTwo ((s.align t).1.size / count) +
            maxPowerOfTwo ((s.align t).1.size / count)
          = (k + 1) * maxPowerOfTwo ((s.align t).1.size / count) := (Nat.succ_mul _ _).symm
        _ ≤ count * ((s.align t).1.size / count) := Nat.mul_le_mul hk (maxPowerOfTwo_le _)
        _ ≤ (s.align t).1.size := Nat.mul_div_le _ _
    have hsizes : (s.align t).1.size = (s.align t).2.size := size_congr (xs_align s t)
    obtain ⟨hs, hl⟩ := (s.align t).1.sumPowers_columns (s.align t).2 window hinside
      (hsizes ▸ hinside)
    rw [hs, ok_bind, pure_eq_ok, pure_eq_ok, map_ok, Fault.lift_ok, CrossSpectrum.columns, hl]

/-- A response of columns ends as that of the series, in all three of its parts. -/
theorem Series.columns_frequencyResponse (s t : Series α) [Max α] (count : Nat) (window : Window)
    (wrapped : Bool) :
    s.columns.frequencyResponse t.columns count window wrapped =
      Fault.lift ((frequencyResponse s t count window wrapped).map FrequencyResponse.columns) := by
  rw [Columns.frequencyResponse, columns_averagedSpectra, frequencyResponse]
  cases CrossSpectrum.ofSignals s t count window with
  | error e => rfl
  | ok sums =>
    rw [map_ok, Fault.lift_ok, ok_bind, ok_bind, pure_eq_ok, map_ok]
    have hr : sums.columns.2.responses = sums.bins.map BinPowers.response :=
      PowerColumns.responses_ofBins sums.bins
    have hc : sums.columns.2.coherences = sums.bins.map BinPowers.coherence :=
      PowerColumns.coherences_ofBins sums.bins
    dsimp only
    rw [hr, hc, sums.columns_series (by simp), Fault.lift_ok, ok_bind,
      sums.columns_series (by cases wrapped <;> simp [length_unwrapPhase]), Fault.lift_ok, ok_bind,
      sums.columns_series (by simp)]
    rfl

/-- A coherence of columns ends as that of the series. -/
theorem Series.columns_coherence (s t : Series α) [Max α] (count : Nat) (window : Window) :
    s.columns.coherence t.columns count window =
      Fault.lift ((coherence s t count window).map columns) := by
  rw [Columns.coherence, columns_averagedSpectra, coherence]
  cases CrossSpectrum.ofSignals s t count window with
  | error e => rfl
  | ok sums =>
    rw [map_ok, Fault.lift_ok, ok_bind, ok_bind, pure_eq_ok, map_ok]
    have hc : sums.columns.2.coherences = sums.bins.map BinPowers.coherence :=
      PowerColumns.coherences_ofBins sums.bins
    dsimp only
    rw [hc, sums.columns_series (List.length_map _)]
    rfl

/-! ## Refused spectra -/

variable {s t : Series α} {count : Nat} {window : Window} {e : Error α}

/-- The powers of two signals fail for one of the checks of a spectrum. -/
theorem isSpectrumError_of_ofSignals [Max α]
    (h : CrossSpectrum.ofSignals s t count window = .error e) : IsSpectrumError e := by
  rcases ite_error_eq_error_iff.1 h with ⟨-, rfl⟩ | ⟨-, h⟩
  · exact .inr ⟨_, rfl⟩
  rcases bind_eq_error_iff.1 h with h | ⟨dt, -, h⟩
  · exact Series.isSpectrumError_of_period h
  rcases ite_error_eq_error_iff.1 h with ⟨-, rfl⟩ | ⟨-, ⟨⟩⟩
  exact .inl ⟨_, rfl⟩

/-- A response fails for one of the checks of a spectrum. -/
theorem isSpectrumError_of_frequencyResponse [Max α] {wrapped : Bool}
    (h : frequencyResponse s t count window wrapped = .error e) : IsSpectrumError e := by
  rcases bind_eq_error_iff.1 h with h | ⟨sums, -, ⟨⟩⟩
  exact isSpectrumError_of_ofSignals h

/-- A coherence fails for one of the checks of a spectrum. -/
theorem isSpectrumError_of_coherence [Max α] (h : coherence s t count window = .error e) :
    IsSpectrumError e := by
  rcases bind_eq_error_iff.1 h with h | ⟨sums, -, ⟨⟩⟩
  exact isSpectrumError_of_ofSignals h

end Sums

end SignalCalc
