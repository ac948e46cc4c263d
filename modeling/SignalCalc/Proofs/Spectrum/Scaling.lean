import SignalCalc.Proofs.Series.Alignment
import SignalCalc.Proofs.Spectrum.Columns
import SignalCalc.Proofs.Spectrum.Offset

/-!
# Spectra of scaled signals

A change of unit multiplies the values of a signal with a factor. The checks of a spectrum do not
look at values and alignment looks at positions only (`Series.align_mapY`), so what is left is the
arithmetic of the blocks: amplitudes are multiplied with the magnitude of the factor, powers with
the products of the factors, and responses with their quotient. All of this holds of blocks whose
means scale along. `faint_mean_is_left` has a block whose mean does not.

Main statement: `spectra_scale_with_signals`.
-/

namespace SignalCalc

/-! ## Bins of scaled blocks -/

/-- A change of every bin is one of the bins that are kept. -/
theorem Spectrum.bins_singleSided_map {s t : Spectrum ℝ} {f : Cplx ℝ → Cplx ℝ}
    (h : s.bins = t.bins.map f) (keepConstant : Bool) :
    (s.singleSided keepConstant).bins = (t.singleSided keepConstant).bins.map f := by
  have hsize : s.size = t.size := by rw [size, size, h, List.length_map]
  cases keepConstant <;> simp [singleSided, take, skipFirst, hsize, h, List.map_take]

section Block

variable {block : List ℝ} {c : ℝ} (window : Window)

/-- The bins of a block scale along with its values, if its mean does or is not removed. -/
theorem bins_ofBlock_scaled {subtractMean : Bool}
    (h : subtractMean = true → ScalesAlong c (mean block)) :
    (Spectrum.ofBlock (block.map (c * ·)) window subtractMean).bins =
      (Spectrum.ofBlock block window subtractMean).bins.map (Cplx.ofReal c * ·) := by
  cases subtractMean with
  | false => exact Spectrum.bins_scaled block window c
  | true => exact (Spectrum.bins_scaled_iff block window c).2 (.inl (h rfl))

/-- The bins for a response scale along with the values, if the mean does. -/
theorem responseBins_scaled (h : ScalesAlong c (mean block)) :
    responseBins (block.map (c * ·)) window =
      (responseBins block window).map (Cplx.ofReal c * ·) :=
  Spectrum.bins_singleSided_map (bins_ofBlock_scaled window fun _ => h) false

/-- Amplitudes are multiplied with the magnitude of the factor. -/
theorem amplitudes_scaled {subtractMean : Bool}
    (h : subtractMean = true → ScalesAlong c (mean block)) :
    amplitudes (block.map (c * ·)) window subtractMean =
      (amplitudes block window subtractMean).map (|c| * ·) := by
  have hbins := Spectrum.bins_singleSided_map (bins_ofBlock_scaled window h) true
  have hmagnitudes : ((Spectrum.ofBlock (block.map (c * ·)) window subtractMean).singleSided
      true).magnitudes = ((Spectrum.ofBlock block window subtractMean).singleSided
        true).magnitudes.map (|c| * ·) := by
    rw [Spectrum.magnitudes, hbins, Spectrum.magnitudes, List.map_map, List.map_map]
    refine List.map_congr_left fun z _ => ?_
    simp [Cplx.norm_eq]
  rw [amplitudes, amplitudes, hmagnitudes, List.length_map]
  refine List.ext_getElem (by simp) fun k h₁ h₂ => ?_
  simp only [List.getElem_map, List.getElem_zipIdx, Nat.zero_add]
  split
  · rw [mul_assoc]
  · rw [mul_left_comm, mul_assoc]

end Block

/-! ## Averaged amplitudes -/

/-- A factor of both summands is one of their sum. -/
theorem zipWith_add_map_mul (c : ℝ) (as bs : List ℝ) :
    List.zipWith (· + ·) (as.map (c * ·)) (bs.map (c * ·)) =
      (List.zipWith (· + ·) as bs).map (c * ·) := by
  rw [List.zipWith_map, List.map_zipWith]
  simp only [mul_add]

namespace Series

variable {s : Series ℝ} {options : SpectrumOptions ℝ} {c : ℝ}

/-- Summed amplitudes are multiplied with the magnitude of the factor. -/
theorem summedAmplitudes_scaled (size : Nat) {blocks : List (List ℝ)}
    (h : ∀ block ∈ blocks, options.subtractMean = true → ScalesAlong c (mean block)) :
    summedAmplitudes (blocks.map (List.map (c * ·))) options size =
      (summedAmplitudes blocks options size).map (|c| * ·) := by
  induction blocks using List.reverseRecOn with
  | nil => simp [summedAmplitudes]
  | append_singleton blocks block ih =>
    have hblock := amplitudes_scaled options.window (h block (by simp))
    have hsums := ih fun b hb => h b (by simp [hb])
    simp only [summedAmplitudes] at hsums
    simp only [summedAmplitudes, List.map_append, List.map_singleton, List.foldl_append,
      List.foldl_cons, List.foldl_nil, hsums, hblock, zipWith_add_map_mul]

/-- A factor of all values is one of the values of each block. -/
theorem blockAt_map (ys : List ℝ) (start size : Nat) :
    blockAt (ys.map (c * ·)) start size = (blockAt ys start size).map (c * ·) := by
  rw [blockAt, blockAt, List.map_take, List.map_drop]

/-- A function of the values leaves the number of samples. -/
theorem size_mapY (s : Series ℝ) (f : ℝ → ℝ) : (s.mapY f).size = s.size :=
  size_congr (xs_mapY s f)

/-- The blocks of a scaled signal are the scaled blocks. -/
theorem blocks_mapY (s : Series ℝ) (options : SpectrumOptions ℝ) (size : Nat) (c : ℝ) :
    (s.mapY (c * ·)).blocks options size = (s.blocks options size).map (List.map (c * ·)) := by
  rw [blocks, blocks, List.map_map, size_mapY, ys_mapY]
  exact List.map_congr_left fun k _ => blockAt_map _ _ _

/-- A spectrum is multiplied with the magnitude of the factor, and refused for the same reasons. -/
theorem amplitudeSpectrum_scaled
    (h : ∀ size, s.blockSize options = .ok size → ∀ block ∈ s.blocks options size,
      options.subtractMean = true → ScalesAlong c (mean block)) :
    (s.mapY (c * ·)).amplitudeSpectrum options =
      (s.amplitudeSpectrum options).map (·.mapY (|c| * ·)) := by
  rw [amplitudeSpectrum, amplitudeSpectrum, period_congr (xs_mapY s _),
    blockSize_congr (xs_mapY s _)]
  cases s.period with
  | error e => rfl
  | ok dt =>
    rw [ok_bind, ok_bind]
    cases hsize : s.blockSize options with
    | error e => rfl
    | ok size =>
      rw [ok_bind, ok_bind]
      by_cases hgain : options.window.coherentGain size ≤ (0 : ℝ)
      · rw [if_pos hgain, if_pos hgain]
        rfl
      rw [if_neg hgain, if_neg hgain]
      by_cases hoverlap : (!(decide (0 ≤ options.overlap) && decide (options.overlap < 1))) = true
      · rw [if_pos hoverlap, if_pos hoverlap]
        rfl
      rw [if_neg hoverlap, if_neg hoverlap]
      have hsums := summedAmplitudes_scaled size (h size hsize)
      rw [← blocks_mapY] at hsums
      simp only [summedAmplitudes, blocks, List.foldl_map] at hsums
      dsimp only
      rw [hsums, size_mapY, pure_eq_ok, pure_eq_ok, map_ok]
      congr 1
      refine Series.ext (List.ext_getElem (by simp [mapY]) fun k h₁ h₂ => ?_)
      simp [mapY, mul_div_assoc]

/-! ## Alignment -/

/-- Functions of the values leave the samples that two series have in common, with other values. -/
theorem commonSamples_mapY (f g : ℝ → ℝ) (as bs : List (Sample ℝ)) :
    commonSamples (as.map fun p => { p with y := f p.y }) (bs.map fun p => { p with y := g p.y }) =
      (commonSamples as bs).map fun q =>
        ({ q.1 with y := f q.1.y }, { q.2 with y := g q.2.y }) := by
  fun_induction commonSamples as bs with
  | case1 a as b bs hm ih =>
    rw [List.map_cons, List.map_cons, commonSamples, if_pos hm, ih, List.map_cons]
  | case2 a as b bs hm hlt ih =>
    rw [List.map_cons, List.map_cons, commonSamples, if_neg hm, if_pos hlt, ← ih, List.map_cons]
  | case3 a as b bs hm hlt ih =>
    rw [List.map_cons, List.map_cons, commonSamples, if_neg hm, if_neg hlt, ← ih, List.map_cons]
  | case4 as bs h =>
    cases as with
    | nil => simp
    | cons a as =>
      cases bs with
      | nil => simp
      | cons b bs => exact (h a as b bs rfl rfl).elim

/-- Alignment does not look at values. -/
theorem align_mapY (s t : Series ℝ) (f g : ℝ → ℝ) :
    (s.mapY f).align (t.mapY g) = ((s.align t).1.mapY f, (s.align t).2.mapY g) := by
  simp only [align, mapY, commonSamples_mapY, List.map_map]
  rfl

end Series

/-! ## Responses -/

namespace BinPowers

/-- The powers of blocks under a factor for each signal. -/
def scaled (a b : ℝ) (p : BinPowers ℝ) : BinPowers ℝ :=
  ⟨a * a * p.input, b * b * p.output, Cplx.ofReal (a * b) * p.cross⟩

/-- A factor of each bin comes twice into the powers. -/
theorem of_scaled (a b : ℝ) (x y : Cplx ℝ) :
    of (Cplx.ofReal a * x) (Cplx.ofReal b * y) = (of x y).scaled a b := by
  apply BinPowers.ext
  · simp only [of, scaled, Cplx.normSq, Cplx.mul_re, Cplx.mul_im, Cplx.ofReal]
    ring
  · simp only [of, scaled, Cplx.normSq, Cplx.mul_re, Cplx.mul_im, Cplx.ofReal]
    ring
  · apply Cplx.toComplex_injective
    simp only [of, scaled, Spectrum.crossBin, Cplx.toComplex_mul, Cplx.toComplex_conj,
      Cplx.toComplex_ofReal, map_mul, Complex.conj_ofReal, Complex.ofReal_mul]
    ring

/-- Summed powers are scaled one by one. -/
theorem scaled_add (a b : ℝ) (p q : BinPowers ℝ) :
    (p + q).scaled a b = p.scaled a b + q.scaled a b := by
  apply BinPowers.ext
  · exact mul_add _ _ _
  · exact mul_add _ _ _
  · apply Cplx.toComplex_injective
    simp only [scaled, add_cross, Cplx.toComplex_mul, Cplx.toComplex_add, mul_add]

/-- Powers that are all zero stay so under factors. -/
theorem scaled_zero (a b : ℝ) : (0 : BinPowers ℝ).scaled a b = 0 := by
  simp [scaled, BinPowers.ext_iff, Cplx.ext_iff]

variable {a b : ℝ}

/-- A response is multiplied with the quotient of the factors. -/
theorem response_scaled (ha : a ≠ 0) (p : BinPowers ℝ) :
    (p.scaled a b).response = Cplx.ofReal (b / a) * p.response := by
  have hpart : ∀ x : ℝ, a * b * x / (a * a * p.input) = b / a * (x / p.input) := by
    intro x
    rw [mul_assoc a b, mul_assoc a a, mul_div_mul_left _ _ ha, mul_div_mul_comm]
  apply Cplx.ext
  · simpa [response, scaled, Cplx.divReal, Cplx.ofReal] using hpart p.cross.re
  · simpa [response, scaled, Cplx.divReal, Cplx.ofReal] using hpart p.cross.im

/-- A coherence does not depend on the factors. -/
theorem coherence_scaled (ha : a ≠ 0) (hb : b ≠ 0) (p : BinPowers ℝ) :
    (p.scaled a b).coherence = p.coherence := by
  have hfactor : 0 < a * b * (a * b) := mul_self_pos.2 (mul_ne_zero ha hb)
  have hmost : (p.scaled a b).input * (p.scaled a b).output =
      a * b * (a * b) * (p.input * p.output) := by
    simp only [scaled]
    ring
  have hcross : (p.scaled a b).cross.normSq = a * b * (a * b) * p.cross.normSq := by
    simp only [scaled, Cplx.normSq, Cplx.mul_re, Cplx.mul_im, Cplx.ofReal]
    ring
  simp only [coherence, hmost, hcross, mul_div_mul_left _ _ hfactor.ne', isFinite_eq_true,
    Bool.and_true, mul_pos_iff_of_pos_left hfactor]

end BinPowers

/-- The powers of scaled blocks are the scaled powers. -/
theorem summedPowers_scaled (a b : ℝ) (bins : Nat)
    (blocks : List (List (Cplx ℝ) × List (Cplx ℝ))) :
    summedPowers bins (blocks.map fun p =>
        (p.1.map (Cplx.ofReal a * ·), p.2.map (Cplx.ofReal b * ·))) =
      (summedPowers bins blocks).map (BinPowers.scaled a b) := by
  induction blocks using List.reverseRecOn with
  | nil => simp [summedPowers, BinPowers.scaled_zero]
  | append_singleton blocks p ih =>
    have hpowers : List.zipWith BinPowers.of (p.1.map (Cplx.ofReal a * ·))
        (p.2.map (Cplx.ofReal b * ·)) =
          (List.zipWith BinPowers.of p.1 p.2).map (BinPowers.scaled a b) := by
      simp only [List.zipWith_map, List.map_zipWith, BinPowers.of_scaled]
    rw [List.map_append, List.map_singleton, summedPowers_concat, summedPowers_concat, ih, hpowers,
      List.zipWith_map, List.map_zipWith]
    simp only [BinPowers.scaled_add]

section Signals

variable {input output : Series ℝ} {count : Nat} {window : Window} {a b : ℝ}

/-- The means of all windows of two signals scale along with a factor for each signal. -/
def WindowsScaleAlong (input output : Series ℝ) (count : Nat) (a b : ℝ) : Prop :=
  let size := responseSize input output count
  ∀ k < count, ScalesAlong a (mean (Series.blockAt (input.align output).1.ys (k * size) size)) ∧
    ScalesAlong b (mean (Series.blockAt (input.align output).2.ys (k * size) size))

/-- The size of the blocks does not depend on the values. -/
theorem responseSize_mapY (input output : Series ℝ) (count : Nat) (f g : ℝ → ℝ) :
    responseSize (input.mapY f) (output.mapY g) count = responseSize input output count := by
  rw [responseSize, responseSize, Series.align_mapY, Series.size_mapY]

/-- The blocks of scaled signals are the scaled blocks, if their means scale along. -/
theorem responseBlocks_scaled (h : WindowsScaleAlong input output count a b) (window : Window) :
    responseBlocks (input.mapY (a * ·)) (output.mapY (b * ·)) count window =
      (responseBlocks input output count window).map fun p =>
        (p.1.map (Cplx.ofReal a * ·), p.2.map (Cplx.ofReal b * ·)) := by
  simp only [responseBlocks, responseSize_mapY, Series.align_mapY, Series.ys_mapY,
    Series.blockAt_map, List.map_map]
  refine List.map_congr_left fun k hk => ?_
  obtain ⟨ha, hb⟩ := h k (List.mem_range.1 hk)
  rw [responseBins_scaled window ha, responseBins_scaled window hb]
  rfl

namespace CrossSpectrum

/-- The averages under a factor for each signal. -/
def scaled (a b : ℝ) (s : CrossSpectrum ℝ) : CrossSpectrum ℝ :=
  ⟨s.df, s.bins.map (BinPowers.scaled a b)⟩

/-- The powers of scaled signals are the scaled powers, and the errors are the same. -/
theorem ofSignals_scaled (h : WindowsScaleAlong input output count a b) (window : Window) :
    ofSignals (input.mapY (a * ·)) (output.mapY (b * ·)) count window =
      (ofSignals input output count window).map (scaled a b) := by
  rw [ofSignals_eq, ofSignals_eq, responseBlocks_scaled h, responseSize_mapY, Series.align_mapY,
    summedPowers_scaled, Series.period_congr (Series.xs_mapY _ _), Series.size_mapY]
  split
  · rfl
  · cases (input.align output).1.period with
    | error e => rfl
    | ok dt =>
      rw [ok_bind, ok_bind]
      split <;> rfl

end CrossSpectrum

/-- Coherences do not depend on the units of the signals. -/
theorem CrossSpectrum.coherence_scaled (ha : a ≠ 0) (hb : b ≠ 0) (s : CrossSpectrum ℝ) :
    (s.scaled a b).coherence = s.coherence := by
  have hvalues : (s.bins.map (BinPowers.scaled a b)).map BinPowers.coherence =
      s.bins.map BinPowers.coherence := by
    rw [List.map_map]
    exact List.map_congr_left fun p _ => BinPowers.coherence_scaled ha hb p
  rw [coherence, coherence, scaled, hvalues]
  rfl

/-- The coherence does not see factors other than zero, if the means of the blocks scale along. -/
theorem coherence_mapY (h : WindowsScaleAlong input output count a b) (ha : a ≠ 0) (hb : b ≠ 0)
    (window : Window) :
    coherence (input.mapY (a * ·)) (output.mapY (b * ·)) count window =
      coherence input output count window := by
  rw [coherence, coherence, CrossSpectrum.ofSignals_scaled h]
  cases CrossSpectrum.ofSignals input output count window with
  | error e => rfl
  | ok s => rw [map_ok, ok_bind, ok_bind, s.coherence_scaled ha hb]

/-- The frequency response does not depend on the unit that both signals have. -/
theorem frequencyResponse_mapY {c : ℝ} (h : WindowsScaleAlong input output count c c) (hc : c ≠ 0)
    (window : Window) (wrapped : Bool) :
    frequencyResponse (input.mapY (c * ·)) (output.mapY (c * ·)) count window wrapped =
      frequencyResponse input output count window wrapped := by
  rw [frequencyResponse, frequencyResponse, CrossSpectrum.ofSignals_scaled h]
  cases CrossSpectrum.ofSignals input output count window with
  | error e => rfl
  | ok s =>
    have hresponse : ∀ p : BinPowers ℝ, (p.scaled c c).response = p.response := by
      intro p
      apply Cplx.toComplex_injective
      rw [BinPowers.response_scaled hc, div_self hc, Cplx.toComplex_mul, Cplx.toComplex_ofReal,
        Complex.ofReal_one, one_mul]
    have hresponses : (s.scaled c c).bins.map BinPowers.response =
        s.bins.map BinPowers.response := by
      rw [CrossSpectrum.scaled, List.map_map]
      exact List.map_congr_left fun p _ => hresponse p
    rw [map_ok, ok_bind, ok_bind, CrossSpectrum.response, CrossSpectrum.response, hresponses,
      s.coherence_scaled hc hc]
    rfl

end Signals

/-! ## The law and its limit -/

/-- **Spectra scale with their signals, as far as their means do.** Without taking means off, the
bins of a block are multiplied with the factor of its samples. With means taken off, they are just
if the mean and its multiple lie on the same side of `10 ^ -12`, or the multiple is zero, or the
window has no spectrum; a block is weighted with the mean zero, or with a mean on the lower side.
Under the condition on all blocks, amplitudes are multiplied with the magnitude of the factor, what
is refused is refused for the same reason, responses are multiplied with the quotient of the factors
of the output and the input, coherences stay, and the whole frequency response stays if both factors
are the same. -/
theorem spectra_scale_with_signals :
    (∀ (signal : List ℝ) (window : Window) (c : ℝ),
      (Spectrum.ofBlock (signal.map (c * ·)) window false).bins =
        (Spectrum.ofBlock signal window false).bins.map (Cplx.ofReal c * ·) ∧
      ((Spectrum.ofBlock (signal.map (c * ·)) window true).bins =
          (Spectrum.ofBlock signal window true).bins.map (Cplx.ofReal c * ·) ↔
        ScalesAlong c (mean signal) ∨
          ∀ k < signal.length, Spectrum.windowBin window signal.length k = 0) ∧
      mean (Spectrum.removeMean signal) = if 1e-12 < |mean signal| then 0 else mean signal) ∧
    (∀ (s : Series ℝ) (options : SpectrumOptions ℝ) (c : ℝ),
      (∀ size, s.blockSize options = .ok size → ∀ block ∈ s.blocks options size,
        options.subtractMean = true → ScalesAlong c (mean block)) →
      (s.mapY (c * ·)).amplitudeSpectrum options =
        (s.amplitudeSpectrum options).map (·.mapY (|c| * ·))) ∧
    ∀ (input output : Series ℝ) (count : Nat) (window : Window) (a b : ℝ), a ≠ 0 → b ≠ 0 →
      WindowsScaleAlong input output count a b →
      (CrossSpectrum.ofSignals (input.mapY (a * ·)) (output.mapY (b * ·)) count window).map
          (fun s => (s.df, s.bins.map BinPowers.response)) =
        (CrossSpectrum.ofSignals input output count window).map
          (fun s => (s.df, s.bins.map fun p => Cplx.ofReal (b / a) * p.response)) ∧
      coherence (input.mapY (a * ·)) (output.mapY (b * ·)) count window =
        coherence input output count window ∧
      (a = b → ∀ wrapped,
        frequencyResponse (input.mapY (a * ·)) (output.mapY (b * ·)) count window wrapped =
          frequencyResponse input output count window wrapped) := by
  refine ⟨fun signal window c => ?_, fun s options c h => ?_,
    fun input output count window a b ha hb h => ?_⟩
  · exact ⟨Spectrum.bins_scaled signal window c, Spectrum.bins_scaled_iff signal window c,
      Spectrum.mean_removeMean signal⟩
  · exact Series.amplitudeSpectrum_scaled h
  · refine ⟨?_, coherence_mapY h ha hb window, ?_⟩
    · rw [CrossSpectrum.ofSignals_scaled h]
      cases CrossSpectrum.ofSignals input output count window with
      | error e => rfl
      | ok s =>
        simp only [map_ok, CrossSpectrum.scaled, List.map_map, Function.comp_def,
          BinPowers.response_scaled ha]
    · rintro rfl wrapped
      exact frequencyResponse_mapY h ha window wrapped

/-- A history in other units, with a change of sign, and the response to it of another one. The
means of the four samples are `2` and `-1`. -/
theorem spectra_scale_with_signals_sign :
    let s : Series ℝ := ⟨[⟨0, 3⟩, ⟨1, 1⟩, ⟨2, 2⟩, ⟨3, 2⟩]⟩
    let t : Series ℝ := ⟨[⟨0, 0⟩, ⟨1, -4⟩, ⟨2, 1⟩, ⟨3, -1⟩]⟩
    (s.mapY (-10 * ·)).amplitudeSpectrum .default =
        (s.amplitudeSpectrum .default).map (·.mapY (|-10| * ·)) ∧
      coherence (s.mapY (-10 * ·)) (t.mapY (3 * ·)) 1 .hann = coherence s t 1 .hann ∧
      frequencyResponse (s.mapY (3 * ·)) (t.mapY (3 * ·)) 1 .hann true =
        frequencyResponse s t 1 .hann true := by
  intro s t
  obtain ⟨-, hspectrum, hresponse⟩ := spectra_scale_with_signals
  have hs : 1e-12 < |mean s.ys| := by norm_num [s, Series.ys, mean, total_eq_sum, abs_of_pos]
  have ht : 1e-12 < |mean t.ys| := by norm_num [t, Series.ys, mean, total_eq_sum]
  have hfour : maxPowerOfTwo 4 = 4 := rfl
  have hten : 1 ≤ |(-10 : ℝ)| := by norm_num
  have hthree : 1 ≤ |(3 : ℝ)| := by norm_num
  have hblocks : ∀ size, s.blockSize .default = .ok size → ∀ block ∈ s.blocks .default size,
      true = true → ScalesAlong (-10) (mean block) := by
    intro size hsize block hb _
    have hone : s.blockSize .default = .ok 4 := by
      simp [Series.blockSize, SpectrumOptions.default, Series.size, minBlock, hfour, s]
    cases hone.symm.trans hsize
    have hcount : blockCount 4 (0 : ℝ) 4 = 1 := by
      have hshared : overlapSamples 4 (0 : ℝ) ≤ 3 := Nat.min_le_right _ _
      rw [blockCount, if_neg (by decide)]
      exact Nat.div_self (by omega)
    have hall : block = s.ys := by
      simpa [Series.blocks, Series.size, SpectrumOptions.default, hcount, Series.blockAt,
        Series.ys, s] using hb
    rw [hall]
    exact .of_one_le hten hs
  have hwindows : ∀ a b : ℝ, 1 ≤ |a| → 1 ≤ |b| → WindowsScaleAlong s t 1 a b := by
    intro a b ha hb k hk
    have hself : ∀ x : ℝ, xMatches x x = true := by
      intro x
      rw [xMatches_iff, sub_self, abs_zero, matchTolerance]
      positivity
    have halign : s.align t = (s, t) := by
      simp [Series.align, Series.commonSamples, hself, s, t]
    have hall : responseSize s t 1 = 4 := by
      rw [responseSize, halign, Nat.div_one]
      exact hfour
    rw [Nat.lt_one_iff.1 hk, halign, hall]
    exact ⟨.of_one_le ha hs, .of_one_le hb ht⟩
  exact ⟨hspectrum s .default (-10) hblocks,
    (hresponse s t 1 .hann (-10) 3 (by norm_num) (by norm_num) (hwindows _ _ hten hthree)).2.1,
    (hresponse s t 1 .hann 3 3 (by norm_num) (by norm_num)
      (hwindows _ _ hthree hthree)).2.2 rfl true⟩

/-- A mean of half of `10 ^ -12` is left in place. Four times the signal has a mean that is taken
off, and no spectrum. -/
theorem faint_mean_is_left :
    let signal : List ℝ := [5e-13, 5e-13, 5e-13, 5e-13]
    mean (Spectrum.removeMean signal) ≠ 0 ∧
      (Spectrum.ofBlock (signal.map (4 * ·)) .uniform true).bins ≠
        (Spectrum.ofBlock signal .uniform true).bins.map (Cplx.ofReal 4 * ·) := by
  intro signal
  have hmean : mean signal = 5e-13 := by norm_num [signal, mean, total_eq_sum]
  have hsmall : ¬1e-12 < |(5e-13 : ℝ)| := by norm_num
  have hlarge : 1e-12 < |(4 * 5e-13 : ℝ)| := by norm_num
  have hwindow : Spectrum.windowBin .uniform 4 0 = 4 := by
    rw [Spectrum.windowBin, Spectrum.bin_ofBlock_false _ _ (by norm_num)]
    norm_num [Finset.sum_range_succ, Window.weight_uniform]
  constructor
  · rw [Spectrum.mean_removeMean, hmean, leftMean, if_neg hsmall]
    norm_num
  · rw [ne_eq, Spectrum.bins_scaled_iff, hmean]
    rintro ((hzero | hside) | hnone)
    · norm_num at hzero
    · exact hsmall (hside.1 hlarge)
    · have hbin := hnone 0 (by norm_num [signal])
      rw [show signal.length = 4 from rfl, hwindow] at hbin
      norm_num at hbin

end SignalCalc
