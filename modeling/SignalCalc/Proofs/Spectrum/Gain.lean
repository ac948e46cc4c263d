import SignalCalc.Proofs.Spectrum.Fourier
import SignalCalc.Proofs.Spectrum.Partition

/-!
# The gain of windows

All windows but the decaying one are sums of cosines (`Window.weight_eq_sum`) that make whole turns
from the first sample to the last. A cosine of `k` turns is the same seen from the end, so these
windows are symmetric, and over `n` samples it adds up to one, the last sample alone, unless `n - 1`
divides `k` and all samples are one (`Window.sum_cos_phase`). With four samples this happens to the
third cosine of the flat top and with five to the fourth, and the gain stays positive there, too.

So a spectrum is not refused for its window: it is made if the spacing, the overlap and the size of
the blocks pass their checks, and the size that is taken by default passes if there are samples for
any block.

Main statement: `every_window_has_gain`.
-/

namespace SignalCalc

namespace Window

/-! ## Cosines over a block -/

section Phase

variable {i k n : ℕ}

/-- The phase goes once around from the first sample to the last one. -/
theorem phase_eq (i n : ℕ) : (phase i n : ℝ) = 2 * Real.pi * i / ((n - 1 : ℕ) : ℝ) := by
  have hpi : (Elementary.pi : ℝ) = Real.pi := rfl
  rw [phase, hpi]
  norm_num

/-- Counted back from the last sample, the phase is what is left of a turn. -/
theorem phase_reversed (hn : 2 ≤ n) (hi : i < n) :
    (phase (n - 1 - i) n : ℝ) = 2 * Real.pi - phase i n := by
  have hm : ((n - 1 : ℕ) : ℝ) ≠ 0 := Nat.cast_ne_zero.2 (by omega)
  rw [phase_eq, phase_eq, Nat.cast_sub (by omega)]
  field_simp

/-- The cosines of a window are the same from both ends. -/
theorem cos_phase_reversed (hn : 2 ≤ n) (hi : i < n) (k : ℕ) :
    Real.cos (k * phase (n - 1 - i) n) = Real.cos (k * phase i n) := by
  rw [phase_reversed hn hi, mul_sub, Real.cos_nat_mul_two_pi_sub]

/-- A cosine of whole turns adds up to what its last sample has, which is one, if the others are not
one, too. -/
theorem sum_cos_phase (hn : 2 ≤ n) (k : ℕ) :
    ∑ i ∈ Finset.range n, Real.cos (k * phase i n) =
      (if n - 1 ∣ k then ((n - 1 : ℕ) : ℝ) else 0) + 1 := by
  obtain ⟨m, rfl⟩ : ∃ m, n = m + 1 := ⟨n - 1, by omega⟩
  have hm : m ≠ 0 := by omega
  have hm' : (m : ℝ) ≠ 0 := Nat.cast_ne_zero.2 hm
  have hterm (i : ℕ) :
      Real.cos (k * phase i (m + 1)) = (Fourier.unitRoot m ^ (i * k)).re := by
    have hangle : (-(2 * Real.pi * (i * k : ℕ) / m) * Complex.I : ℂ) =
        ((-(k * (2 * Real.pi * i / m)) : ℝ) : ℂ) * Complex.I := by
      push_cast
      ring
    rw [phase_eq, Nat.add_sub_cancel, Fourier.unitRoot_pow, hangle, Complex.exp_ofReal_mul_I_re,
      Real.cos_neg]
  have hlast : Real.cos (k * phase m (m + 1)) = 1 := by
    rw [phase_eq, Nat.add_sub_cancel, mul_div_assoc, div_self hm', mul_one,
      Real.cos_nat_mul_two_pi]
  have hturn : ∑ i ∈ Finset.range m, Real.cos (k * phase i (m + 1)) =
      if m ∣ k then (m : ℝ) else 0 := by
    simp only [hterm]
    rw [← Complex.re_sum, Fourier.sum_unitRoot_pow hm]
    split
    · exact Complex.natCast_re m
    · exact Complex.zero_re
  rw [Finset.sum_range_succ, hlast, hturn, Nat.add_sub_cancel]

end Phase

/-! ## Weights -/

/-- The shares of the cosines in a window, by their turns. The decaying window is no sum of cosines.
-/
noncomputable def harmonics : Window → List ℝ
  | uniform => [1]
  | hann => [0.5, -0.5]
  | hamming => [0.54, -0.46]
  | flatTop => [0.21557895, -0.41663158, 0.277263158, -0.083578947, 0.006947368]
  | exponential => []

variable {w : Window} {i n : ℕ}

/-- A window other than the decaying one is a sum of cosines. -/
theorem weight_eq_sum (hw : w ≠ exponential) (hn : 2 ≤ n) (i : ℕ) :
    (w.weight i n : ℝ) = ∑ k ∈ Finset.range 5, w.harmonics.getD k 0 * Real.cos (k * phase i n) := by
  have hcos (x : ℝ) : Elementary.cos x = Real.cos x := rfl
  rw [weight, if_neg (by omega)]
  simp only [Finset.sum_range_succ, Finset.sum_range_zero, hcos]
  cases w with
  | exponential => exact absurd rfl hw
  | uniform => norm_num [harmonics]
  | hann | hamming | flatTop =>
    norm_num [harmonics]
    ring

/-- The decaying window starts with one and has no negative weight. -/
theorem weight_exponential (hn : 2 ≤ n) (i : ℕ) :
    0 < (exponential.weight i n : ℝ) ∧ (exponential.weight i n : ℝ) ≤ 1 := by
  have hexp (x : ℝ) : Elementary.exp x = Real.exp x := rfl
  have hln : (Elementary.ln 0.01 : ℝ) ≤ 0 := Real.log_nonpos (by norm_num) (by norm_num)
  rw [weight, if_neg (by omega), hexp]
  refine ⟨Real.exp_pos _, Real.exp_le_one_iff.2 ?_⟩
  exact div_nonpos_of_nonpos_of_nonneg (mul_nonpos_of_nonpos_of_nonneg hln i.cast_nonneg)
    (Nat.cast_nonneg _)

/-- A window other than the decaying one is the same from both ends. -/
theorem weight_reversed (hw : w ≠ exponential) (hi : i < n) :
    (w.weight i n : ℝ) = w.weight (n - 1 - i) n := by
  rcases Nat.lt_or_ge n 2 with hn | hn
  · rw [weight, weight, if_pos hn, if_pos hn]
  · rw [weight_eq_sum hw hn, weight_eq_sum hw hn]
    simp only [cos_phase_reversed hn hi]

/-! ## Gains -/

/-- The gain of a window is the mean of its weights. -/
theorem coherentGain_eq (w : Window) (hn : n ≠ 0) :
    (w.coherentGain n : ℝ) = (∑ i ∈ Finset.range n, w.weight i n) / n := by
  rw [coherentGain, if_neg hn, total_eq_sum]
  rfl

/-- The sum of the weights from the shares of the cosines. -/
theorem sum_weight_eq (hw : w ≠ exponential) (hn : 2 ≤ n) :
    ∑ i ∈ Finset.range n, (w.weight i n : ℝ) =
      ∑ k ∈ Finset.range 5,
        w.harmonics.getD k 0 * ((if n - 1 ∣ k then ((n - 1 : ℕ) : ℝ) else 0) + 1) := by
  simp only [weight_eq_sum hw hn]
  rw [Finset.sum_comm]
  simp only [← Finset.mul_sum, sum_cos_phase hn]

/-- The weights of the decaying window have a positive sum of at most their number. -/
theorem sum_weight_exponential (hn : 2 ≤ n) :
    0 < ∑ i ∈ Finset.range n, (exponential.weight i n : ℝ) ∧
      ∑ i ∈ Finset.range n, (exponential.weight i n : ℝ) ≤ n := by
  have hweight := weight_exponential hn
  refine ⟨Finset.sum_pos (fun i _ => (hweight i).1) ⟨0, Finset.mem_range.2 (by omega)⟩, ?_⟩
  calc ∑ i ∈ Finset.range n, (exponential.weight i n : ℝ)
      ≤ ∑ _i ∈ Finset.range n, (1 : ℝ) := Finset.sum_le_sum fun i _ => (hweight i).2
    _ = n := by rw [Finset.sum_const, Finset.card_range, nsmul_one]

/-- From four samples on, the first and the second cosine add up to one. The third one stands still
over four samples, the fourth one over five. -/
theorem sum_weight_cosines (hw : w ≠ exponential) (hn : 4 ≤ n) :
    0 < ∑ i ∈ Finset.range n, (w.weight i n : ℝ) ∧
      ∑ i ∈ Finset.range n, (w.weight i n : ℝ) ≤ n := by
  have hn' : (4 : ℝ) ≤ n := by exact_mod_cast hn
  have h0 : ((n - 1 : ℕ) : ℝ) + 1 = n := by
    rw [Nat.cast_sub (by omega), Nat.cast_one, sub_add_cancel]
  have h1 : ¬n - 1 ∣ 1 := Nat.not_dvd_of_pos_of_lt Nat.one_pos (by omega)
  have h2 : ¬n - 1 ∣ 2 := Nat.not_dvd_of_pos_of_lt Nat.two_pos (by omega)
  rw [sum_weight_eq hw (by omega)]
  simp only [Finset.sum_range_succ, Finset.sum_range_zero, dvd_zero, if_pos, h0, h1, h2, if_false,
    zero_add]
  obtain rfl | rfl | hlarge : n = 4 ∨ n = 5 ∨ 5 < n := by omega
  · cases w with
    | exponential => exact absurd rfl hw
    | uniform | hann | hamming | flatTop => norm_num [harmonics]
  · cases w with
    | exponential => exact absurd rfl hw
    | uniform | hann | hamming | flatTop => norm_num [harmonics]
  · have h3 : ¬n - 1 ∣ 3 := Nat.not_dvd_of_pos_of_lt (by omega) (by omega)
    have h4 : ¬n - 1 ∣ 4 := Nat.not_dvd_of_pos_of_lt (by omega) (by omega)
    rw [if_neg h3, if_neg h4]
    generalize (n : ℝ) = x at hn' ⊢
    cases w with
    | exponential => exact absurd rfl hw
    | uniform | hann | hamming | flatTop =>
      constructor <;> norm_num [harmonics] <;> linarith only [hn']

/-- From four samples on every window has a positive gain of at most one. -/
theorem coherentGain_bounds (w : Window) (hn : 4 ≤ n) :
    0 < (w.coherentGain n : ℝ) ∧ (w.coherentGain n : ℝ) ≤ 1 := by
  have hpos : (0 : ℝ) < n := Nat.cast_pos.2 (by omega)
  obtain ⟨h0, h1⟩ : 0 < ∑ i ∈ Finset.range n, (w.weight i n : ℝ) ∧
      ∑ i ∈ Finset.range n, (w.weight i n : ℝ) ≤ n := by
    by_cases hw : w = exponential
    · exact hw ▸ sum_weight_exponential (by omega)
    · exact sum_weight_cosines hw hn
  rw [coherentGain_eq w (by omega)]
  exact ⟨div_pos h0 hpos, (div_le_one hpos).2 h1⟩

end Window

/-! ## Spectra that are made -/

namespace Series

section Checks

variable {α : Type} [Zero α] [BEq α] {s : Series α}

/-- A signal has a period if its spacing is finite and positive. -/
theorem period_eq_ok_iff [Sub α] [Div α] [NatCast α] [LT α] [DecidableLT α] {dt : α} :
    s.period = .ok dt ↔ s.spacing? = some dt ∧ isFinite dt = true ∧ 0 < dt := by
  rw [period]
  cases s.spacing? with
  | none => simp
  | some dt' =>
    simp only [checkSpacing]
    split <;> grind

/-- The size of the blocks is the given one, or the greatest power of two, if it is in bounds. -/
theorem blockSize_eq_ok_iff {options : SpectrumOptions α} {size : ℕ} :
    s.blockSize options = .ok size ↔
      size = options.blockSize?.getD (maxPowerOfTwo s.size) ∧ minBlock ≤ size ∧ size ≤ s.size := by
  have hlarge := minBlock_le_maxPowerOfTwo_iff (n := s.size)
  rw [blockSize]
  cases options.blockSize? with
  | none =>
    simp only [throw_eq_error, error_bind, pure_eq_ok, bind_eq_ok_iff, ite_error_eq_ok_iff,
      Except.ok.injEq, Option.getD_none]
    grind
  | some size' =>
    simp only [throw_eq_error, error_bind, pure_eq_ok, ok_bind, ite_error_eq_ok_iff,
      Except.ok.injEq, Option.getD_some]
    grind

/-- There is a size for the blocks if the given one is in bounds, or if none is given and there are
samples for any block. -/
theorem exists_blockSize_iff {options : SpectrumOptions α} :
    (∃ size, s.blockSize options = .ok size) ↔
      match options.blockSize? with
      | some size => 4 ≤ size ∧ size ≤ s.size
      | none => 4 ≤ s.size := by
  simp only [blockSize_eq_ok_iff, exists_eq_left]
  cases options.blockSize? with
  | none =>
    rw [Option.getD_none, minBlock_le_maxPowerOfTwo_iff, and_iff_left (maxPowerOfTwo_le _)]
    rfl
  | some size => rfl

omit [Zero α] [BEq α] in
/-- Only two samples have a spacing. -/
theorem two_le_size_of_spacing? [Sub α] [Div α] [NatCast α] {dt : α} (h : s.spacing? = some dt) :
    2 ≤ s.size := by
  rw [spacing?_eq, Option.dite_none_right_eq_some] at h
  obtain ⟨hs, -⟩ := h
  rwa [length_xs] at hs

end Checks

section Exact

variable {s : Series ℝ} {options : SpectrumOptions ℝ}

/-- At the size of a block no window is refused for its gain. -/
theorem not_coherentGain_le {size : ℕ} (h : s.blockSize options = .ok size) (w : Window) :
    ¬w.coherentGain size ≤ (0 : ℝ) :=
  not_le.2 (w.coherentGain_bounds (le_of_blockSize h).1).1

/-- A spectrum is made if the checks pass that do not ask for the window. -/
theorem exists_amplitudeSpectrum_iff :
    (∃ spectrum, s.amplitudeSpectrum options = .ok spectrum) ↔
      (∃ dt, s.period = .ok dt) ∧ (∃ size, s.blockSize options = .ok size) ∧
        0 ≤ options.overlap ∧ options.overlap < 1 := by
  constructor
  · rintro ⟨spectrum, h⟩
    obtain ⟨dt, size, hdt, hsize, -, h0, h1, -⟩ := amplitudeSpectrum_eq_ok_iff.1 h
    exact ⟨⟨dt, hdt⟩, ⟨size, hsize⟩, h0, h1⟩
  · rintro ⟨⟨dt, hdt⟩, ⟨size, hsize⟩, h0, h1⟩
    exact ⟨_, amplitudeSpectrum_eq_ok_iff.2
      ⟨dt, size, hdt, hsize, not_coherentGain_le hsize _, h0, h1, rfl⟩⟩

/-- No spectrum is refused for its window. -/
theorem amplitudeSpectrum_ne_noGain (w : Window) (size : ℕ) :
    s.amplitudeSpectrum options ≠ .error (.invalidParameter (.noGain w size)) := by
  intro h
  simp only [amplitudeSpectrum, bind_eq_error_iff, throw_eq_error, error_bind, pure_eq_ok,
    ite_error_eq_error_iff] at h
  rcases h with h | ⟨dt, -, h | ⟨size', hsize, ⟨hgain, -⟩ | ⟨-, h⟩⟩⟩
  · rw [period] at h
    split at h
    · cases h
    · rw [checkSpacing] at h
      split at h <;> cases h
  · rw [blockSize] at h
    split at h <;> grind [bind_eq_error_iff, throw_eq_error, pure_eq_ok]
  · exact not_coherentGain_le hsize _ hgain
  · grind

end Exact

end Series

/-- **Every window has gain.** From four samples on the coherent gain of a window is positive and no
more than one. All windows but the decaying one are symmetric. So a spectrum is made just if there
are two samples, their average spacing is finite and positive, the overlap is at least zero and less
than one, and a given size of the blocks is at least four and no more than the count of the samples,
or there are four samples if none is given. It is never refused for the gain of its window, and the
size that is taken by default is in bounds. -/
theorem every_window_has_gain :
    (∀ (w : Window) (n : ℕ), 4 ≤ n → (0 : ℝ) < w.coherentGain n ∧ w.coherentGain n ≤ (1 : ℝ)) ∧
    (∀ (w : Window) (i n : ℕ), w ≠ .exponential → i < n →
      (w.weight i n : ℝ) = w.weight (n - 1 - i) n) ∧
    ∀ (s : Series ℝ) (options : SpectrumOptions ℝ),
      ((∃ spectrum, s.amplitudeSpectrum options = .ok spectrum) ↔
        2 ≤ s.size ∧ (∃ dt, s.spacing? = some dt ∧ isFinite dt = true ∧ 0 < dt) ∧
          (0 ≤ options.overlap ∧ options.overlap < 1) ∧
          match options.blockSize? with
          | some size => 4 ≤ size ∧ size ≤ s.size
          | none => 4 ≤ s.size) ∧
      (∀ w size, s.amplitudeSpectrum options ≠ .error (.invalidParameter (.noGain w size))) ∧
      (options.blockSize? = none → 4 ≤ s.size →
        s.blockSize options = .ok (maxPowerOfTwo s.size)) := by
  refine ⟨fun w n hn => w.coherentGain_bounds hn, fun w i n hw hi => Window.weight_reversed hw hi,
    fun s options => ⟨?_, Series.amplitudeSpectrum_ne_noGain, fun hnone hs => ?_⟩⟩
  · simp only [Series.exists_amplitudeSpectrum_iff, Series.exists_blockSize_iff,
      Series.period_eq_ok_iff]
    constructor
    · rintro ⟨⟨dt, hdt, hpos⟩, hsize, hoverlap⟩
      exact ⟨Series.two_le_size_of_spacing? hdt, ⟨dt, hdt, hpos⟩, hoverlap, hsize⟩
    · rintro ⟨-, hdt, hoverlap, hsize⟩
      exact ⟨hdt, hsize, hoverlap⟩
  · rw [Series.blockSize_eq_ok_iff, hnone]
    exact ⟨rfl, minBlock_le_maxPowerOfTwo_iff.2 hs, maxPowerOfTwo_le _⟩

/-- The flat top over four samples, where its third cosine stands still, and over seven samples with
the size that is taken by default. -/
theorem every_window_has_gain_flatTop :
    let s : Series ℝ := ⟨(List.range 7).map fun i : ℕ => ⟨i, 1⟩⟩
    let options : SpectrumOptions ℝ := ⟨.flatTop, none, 1 / 2, true⟩
    4 ≤ 4 ∧ (0 : ℝ) < Window.flatTop.coherentGain 4 ∧
      (Window.flatTop.weight 1 4 : ℝ) = Window.flatTop.weight 2 4 ∧
      (∃ spectrum, s.amplitudeSpectrum options = .ok spectrum) ∧
      s.blockSize options = .ok 4 := by
  intro s options
  obtain ⟨hgain, hweight, hspectrum⟩ := every_window_has_gain
  obtain ⟨hmade, -, hsize⟩ := hspectrum s options
  have hlength : s.size = 7 := by simp [s, Series.size]
  have hspacing : s.spacing? = some 1 := by
    simp [s, Series.spacing?, Series.size, List.range_succ]
  refine ⟨le_rfl, (hgain .flatTop 4 le_rfl).1, hweight .flatTop 1 4 (by simp) (by decide),
    hmade.2 ?_, ?_⟩
  · refine ⟨by omega, ⟨1, hspacing, isFinite_eq_true _, one_pos⟩, ?_, ?_⟩
    · simp only [options]
      norm_num
    · show 4 ≤ s.size
      omega
  · rw [hsize rfl (by omega), hlength]
    rfl

end SignalCalc
