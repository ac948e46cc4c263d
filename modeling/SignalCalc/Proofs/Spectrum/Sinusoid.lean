import Mathlib.Data.List.GetD
import SignalCalc.Proofs.Series.Columns
import SignalCalc.Proofs.Spectrum.Blocks
import SignalCalc.Proofs.Spectrum.Fourier

/-!
# The spectrum of a sinusoid

A cosine that makes a whole number of turns in a block is the sum of two phasors, which are powers
of the root of unity (`Fourier.ofReal_cosine`). One of them stands still in the bin that has the
number of the turns. In all other bins that are kept both add up to zero over the block
(`Fourier.norm_dft_cosine`). The constant part is one of these, and there is no mean to take off. A
block that starts elsewhere has another phase and the same amplitudes, and the average over the
blocks is what one of them has.

Main statements: `amplitudes_cosine`, `sinusoid_reads_amplitude`.
-/

namespace SignalCalc

/-- The samples of a block in which a cosine makes `k` turns. -/
noncomputable def cosine (n k : Nat) (A φ : ℝ) : List ℝ :=
  (List.range n).map fun i => A * Real.cos (Real.pi * (2 * k * i : Nat) / n + φ)

variable {n k j : Nat} {A φ : ℝ}

@[simp] theorem length_cosine : (cosine n k A φ).length = n := by
  simp [cosine]

/-- A sample of the sinusoid. -/
theorem getElem_cosine {i : Nat} (h : i < (cosine n k A φ).length) :
    (cosine n k A φ)[i] = A * Real.cos (2 * Real.pi * k * i / n + φ) := by
  simp only [cosine, List.getElem_map, List.getElem_range]
  push_cast
  ring_nf

/-! ## Bins -/

namespace Fourier

/-- A cosine from the phasors that turn with it and against it. -/
theorem ofReal_cosine (hn : n ≠ 0) (hk : k ≤ n) (i : Nat) :
    ((A * Real.cos (2 * Real.pi * k * i / n + φ) : ℝ) : ℂ) =
      A / 2 * (Complex.exp (φ * Complex.I) * unitRoot n ^ (i * (n - k)) +
        Complex.exp (-φ * Complex.I) * unitRoot n ^ (i * k)) := by
  have hagainst : unitRoot n ^ (i * k) = Complex.exp (-(2 * Real.pi * k * i / n) * Complex.I) := by
    rw [unitRoot_pow]
    congr 1
    push_cast
    ring
  have hwith : unitRoot n ^ (i * (n - k)) = Complex.exp (2 * Real.pi * k * i / n * Complex.I) := by
    have hone : unitRoot n ^ (i * (n - k)) * unitRoot n ^ (i * k) = 1 := by
      rw [← pow_add, ← Nat.mul_add, Nat.sub_add_cancel hk, mul_comm, pow_mul,
        (isPrimitiveRoot_unitRoot hn).pow_eq_one, one_pow]
    rw [eq_inv_of_mul_eq_one_left hone, hagainst, ← Complex.exp_neg]
    ring_nf
  rw [hwith, hagainst, ← Complex.exp_add, ← Complex.exp_add]
  push_cast
  rw [Complex.cos]
  ring_nf

/-- A bin counts the block for each phasor that stands still in it. -/
theorem dft_cosine (hn : n ≠ 0) (hk : k ≤ n) (j : Nat) :
    dft ((cosine n k A φ).map Cplx.ofReal) j =
      A / 2 * (Complex.exp (φ * Complex.I) * (if n ∣ n - k + j then (n : ℂ) else 0) +
        Complex.exp (-φ * Complex.I) * (if n ∣ k + j then (n : ℂ) else 0)) := by
  have hterm : ∀ i ∈ Finset.range n,
      unitRoot n ^ (i * j) * (((cosine n k A φ).map Cplx.ofReal).getD i 0).toComplex =
        A / 2 * (Complex.exp (φ * Complex.I) * unitRoot n ^ (i * (n - k + j)) +
          Complex.exp (-φ * Complex.I) * unitRoot n ^ (i * (k + j))) := by
    intro i hi
    have hget : ((cosine n k A φ).map Cplx.ofReal).getD i 0 =
        Cplx.ofReal (A * Real.cos (2 * Real.pi * k * i / n + φ)) := by
      have hlt : i < ((cosine n k A φ).map Cplx.ofReal).length := by
        simpa using Finset.mem_range.1 hi
      rw [List.getD_eq_getElem _ _ hlt, List.getElem_map, getElem_cosine]
    rw [hget, Cplx.toComplex_ofReal, ofReal_cosine hn hk, Nat.mul_add, Nat.mul_add, pow_add,
      pow_add]
    ring
  rw [dft, List.length_map, length_cosine, Finset.sum_congr rfl hterm, ← Finset.mul_sum,
    Finset.sum_add_distrib, ← Finset.mul_sum, ← Finset.mul_sum, sum_unitRoot_pow hn,
    sum_unitRoot_pow hn]

/-- Of the bins that are kept, only the one of the cosine is not zero. -/
theorem norm_dft_cosine (hk0 : 0 < k) (hk : k < n / 2) (hj : j < n / 2) (hA : 0 ≤ A) :
    ‖dft ((cosine n k A φ).map Cplx.ofReal) j‖ = if j = k then A / 2 * n else 0 := by
  have hagainst : ¬n ∣ k + j := Nat.not_dvd_of_pos_of_lt (by omega) (by omega)
  rw [dft_cosine (by omega) (by omega), if_neg hagainst, mul_zero, add_zero]
  split_ifs with hdvd hjk hjk
  · have hhalf : ‖(A / 2 : ℂ)‖ = A / 2 := by
      rw [← Complex.ofReal_ofNat, ← Complex.ofReal_div, Complex.norm_of_nonneg (by positivity)]
    rw [norm_mul, norm_mul, hhalf, Complex.norm_exp_ofReal_mul_I, one_mul, Complex.norm_natCast]
  · obtain ⟨c, hc⟩ := hdvd
    have hc0 : c ≠ 0 := by
      rintro rfl
      omega
    have hc1 : c < 2 := Nat.lt_of_mul_lt_mul_left (a := n) (by omega)
    obtain rfl : c = 1 := by omega
    omega
  · exact absurd ⟨1, by omega⟩ hdvd
  · simp

/-- The constant part is the sum of the samples. -/
theorem dft_zero (ys : List ℝ) : dft (ys.map Cplx.ofReal) 0 = ((total ys : ℝ) : ℂ) := by
  have hsum : ((ys.map Cplx.ofReal).map Cplx.toComplex).sum = ((ys.sum : ℝ) : ℂ) := by
    induction ys with
    | nil => simp
    | cons y ys ih => simpa using ih
  have hfirst := sum_map_zipIdx (ys.map Cplx.ofReal) (fun x _ => x.toComplex) 0
  rw [← Function.comp_def Cplx.toComplex Prod.fst, ← List.map_map, List.zipIdx_map_fst, hsum]
    at hfirst
  rw [total_eq_sum, hfirst, dft]
  simp only [Nat.mul_zero, pow_zero, one_mul]

end Fourier

/-! ## Blocks -/

/-- There is no mean to take off. -/
theorem removeMean_cosine (hk0 : 0 < k) (hk : k < n / 2) :
    Spectrum.removeMean (cosine n k A φ) = cosine n k A φ := by
  have hagainst : ¬n ∣ k + 0 := Nat.not_dvd_of_pos_of_lt (by omega) (by omega)
  have hwith : ¬n ∣ n - k + 0 := Nat.not_dvd_of_pos_of_lt (by omega) (by omega)
  have htotal : total (cosine n k A φ) = 0 := by
    have hbin := Fourier.dft_cosine (n := n) (k := k) (A := A) (φ := φ) (by omega) (by omega) 0
    rw [Fourier.dft_zero, if_neg hwith, if_neg hagainst, mul_zero, mul_zero, add_zero,
      mul_zero] at hbin
    exact_mod_cast hbin
  have habs : (Elementary.abs (0 : ℝ)) = 0 := abs_zero
  have hsmall : ¬((1e-12 : ℝ) < 0) := by norm_num
  simp only [Spectrum.removeMean, htotal, zero_div, habs, if_neg hsmall]

namespace Window

/-- Every sample has the weight one. -/
theorem weight_uniform (i n : Nat) : uniform.weight i n = (1 : ℝ) := by
  simp [weight]

/-- The uniform window leaves a block as it is. -/
theorem apply_uniform (block : List ℝ) : uniform.apply block = block := by
  simp only [apply, weight_uniform, mul_one]
  exact List.zipIdx_map_fst 0 block

/-- The uniform window has the gain one. -/
theorem coherentGain_uniform (n : Nat) : uniform.coherentGain n = (1 : ℝ) := by
  rw [coherentGain]
  split
  · rfl
  · next h =>
    have hn : (n : ℝ) ≠ 0 := Nat.cast_ne_zero.2 h
    simp [weight_uniform, total_eq_sum, div_self hn]

end Window

/-- A sinusoid has no mean, so it does not matter whether the mean is removed. -/
theorem ofBlock_cosine (hk0 : 0 < k) (hk : k < n / 2) (subtractMean : Bool) :
    (Spectrum.ofBlock (cosine n k A φ) .uniform subtractMean).bins =
      Fourier.transform ((cosine n k A φ).map Cplx.ofReal) := by
  rw [Spectrum.ofBlock, removeMean_cosine hk0 hk, ite_self, Window.apply_uniform]
  rfl

/-- A sinusoid is found in its own bin only, with half its amplitude. -/
theorem magnitudes_cosine (hk0 : 0 < k) (hk : k < n / 2) (hA : 0 ≤ A) (subtractMean : Bool) :
    ((Spectrum.ofBlock (cosine n k A φ) .uniform subtractMean).singleSided true).magnitudes =
      (List.range (n / 2)).map fun j => if j = k then A / 2 * n else 0 := by
  have hlength : (Fourier.transform ((cosine n k A φ).map Cplx.ofReal)).length = n := by
    rw [Fourier.length_transform, List.length_map, length_cosine]
  rw [Spectrum.singleSided, if_pos rfl, Spectrum.magnitudes, Spectrum.take, Spectrum.size,
    ofBlock_cosine hk0 hk, hlength]
  refine List.ext_getElem (by simp [hlength]; omega) fun j h₁ h₂ => ?_
  have hj : j < n / 2 := by simpa using h₂
  have hbin := Fourier.toComplex_transform ((cosine n k A φ).map Cplx.ofReal) (k := j)
    (by simp; omega)
  rw [List.getD_eq_getElem _ _ (by omega)] at hbin
  rw [List.getElem_map, List.getElem_take, Cplx.norm_eq, hbin,
    Fourier.norm_dft_cosine hk0 hk hj hA, List.getElem_map, List.getElem_range]

/-- A block reads the amplitude in the bin of the cosine, whatever the phase is. -/
theorem amplitudes_cosine (hk0 : 0 < k) (hk : k < n / 2) (hA : 0 ≤ A) (subtractMean : Bool) :
    amplitudes (cosine n k A φ) .uniform subtractMean =
      (List.range (n / 2)).map fun j => if j = k then A else 0 := by
  have hn : (n : ℝ) ≠ 0 := Nat.cast_ne_zero.2 (by omega)
  rw [amplitudes, magnitudes_cosine hk0 hk hA, length_cosine, Window.coherentGain_uniform]
  refine List.ext_getElem (by simp) fun j h₁ h₂ => ?_
  simp only [List.getElem_map, List.getElem_zipIdx, List.getElem_range, Nat.zero_add]
  split_ifs with h0 hjk hjk
  · omega
  · rw [zero_mul]
  · field_simp
    norm_num
    ring
  · rw [mul_zero, zero_mul]

/-! ## Averages -/

namespace Series

variable {s : Series ℝ} {options : SpectrumOptions ℝ} {x₀ dt : ℝ}

/-- If all blocks have the same amplitudes, the sums have so many times these. -/
theorem summedAmplitudes_eq {size : Nat} {amps : List ℝ} (hlen : amps.length = size / 2)
    {blocks : List (List ℝ)}
    (h : ∀ block ∈ blocks, amplitudes block options.window options.subtractMean = amps) :
    summedAmplitudes blocks options size = amps.map ((blocks.length : ℝ) * ·) := by
  induction blocks using List.reverseRecOn with
  | nil => simp [summedAmplitudes, ← hlen]
  | append_singleton blocks block ih =>
    have hlast : amplitudes block options.window options.subtractMean = amps := h block (by simp)
    have hsums := ih fun b hb => h b (by simp [hb])
    rw [summedAmplitudes] at hsums
    rw [summedAmplitudes, List.foldl_append, hsums, List.foldl_cons, List.foldl_nil, hlast]
    refine List.ext_getElem (by simp) fun j h₁ h₂ => ?_
    simp only [List.getElem_zipWith, List.getElem_map, List.length_append, List.length_singleton]
    push_cast
    ring

/-- Every block of a cosine is a cosine, with the phase that it has where the block starts. -/
theorem exists_eq_cosine (hn : 0 < n) (hsize : n ≤ s.size)
    (hy : ∀ (i : Nat) p, s.samples[i]? = some p → p.y = A * Real.cos (2 * Real.pi * k * i / n + φ))
    {block : List ℝ} (hb : block ∈ s.blocks options n) : ∃ φ', block = cosine n k A φ' := by
  obtain ⟨b, hb⟩ := List.mem_iff_getElem?.1 hb
  obtain ⟨hlen, hsamples⟩ := getElem?_blocks hn hsize hb
  generalize b * (n - overlapSamples n options.overlap) = start at hsamples
  refine ⟨2 * Real.pi * k * start / n + φ, List.ext_getElem (by simp [hlen]) fun i h₁ h₂ => ?_⟩
  have hi := hsamples i (hlen ▸ h₁)
  rw [List.getElem?_eq_getElem h₁, ys, List.getElem?_map, eq_comm, Option.map_eq_some_iff] at hi
  obtain ⟨p, hp, hpy⟩ := hi
  rw [← hpy, hy _ p hp]
  rw [getElem_cosine]
  push_cast
  ring_nf

/-- Positions at even distances have these as their spacing. -/
theorem period_of_even (hsize : 1 < s.size) (hdt : 0 < dt)
    (hx : ∀ (i : Nat) p, s.samples[i]? = some p → p.x = x₀ + i * dt) : s.period = .ok dt := by
  have hget : ∀ i (h : i < s.xs.length), s.xs[i] = x₀ + i * dt := by
    intro i h
    have hi : i < s.samples.length := by rwa [length_xs] at h
    simpa [xs] using hx i _ (List.getElem?_eq_getElem hi)
  have hcount : ((s.size - 1 : Nat) : ℝ) ≠ 0 := Nat.cast_ne_zero.2 (by omega)
  have hspacing : s.spacing? = some dt := by
    rw [spacing?_eq, dif_pos (by simpa using hsize), hget, hget, length_xs]
    congr 1
    field_simp
    ring
  rw [period, hspacing]
  simp [checkSpacing, hdt]

/-- **A sinusoid reads its amplitude.** A history is evenly spaced, and its values are those of a
cosine with a whole number of turns in a block, which is one of the bins with positive frequencies.
Whatever the size of the blocks, their overlap and the phase are, and whether means are taken off or
not, the spectrum has the amplitude in this bin and zero in all others. An overlap out of bounds is
refused. -/
theorem sinusoid_reads_amplitude {N k : Nat} (hwindow : options.window = .uniform)
    (hN : s.blockSize options = .ok N) (hk0 : 0 < k) (hk : k < N / 2) (hA : 0 ≤ A) (hdt : 0 < dt)
    (hs : ∀ (i : Nat) p, s.samples[i]? = some p →
      p.x = x₀ + i * dt ∧ p.y = A * Real.cos (2 * Real.pi * k * i / N + φ)) :
    s.amplitudeSpectrum options =
      if 0 ≤ options.overlap ∧ options.overlap < 1 then
        .ok ⟨(List.range (N / 2)).map fun j : Nat => ⟨j / (N * dt), if j = k then A else 0⟩⟩
      else .error (.invalidParameter (.overlap options.overlap)) := by
  obtain ⟨-, hsize⟩ := le_of_blockSize hN
  have hperiod : s.period = .ok dt :=
    period_of_even (by omega) hdt fun i p hp => (hs i p hp).1
  have hgain : ¬options.window.coherentGain N ≤ (0 : ℝ) := by
    rw [hwindow, Window.coherentGain_uniform]
    norm_num
  split_ifs with hoverlap
  · have hcount := (fills_blockCount (by omega) hsize options.overlap).count_pos
    have hc : (blockCount N options.overlap s.size : ℝ) ≠ 0 := Nat.cast_ne_zero.2 hcount.ne'
    have hone : (1.0 : ℝ) = 1 := by norm_num
    -- Every block is such a cosine with a phase of its own, which amplitudes do not show.
    have hsums : summedAmplitudes (s.blocks options N) options N =
        ((List.range (N / 2)).map fun j => if j = k then A else 0).map
          ((blockCount N options.overlap s.size : ℝ) * ·) := by
      have hlength : (s.blocks options N).length = blockCount N options.overlap s.size := by
        rw [blocks, List.length_map, List.length_range]
      rw [← hlength]
      refine summedAmplitudes_eq (by simp) fun block hb => ?_
      obtain ⟨φ', rfl⟩ := exists_eq_cosine (by omega) hsize (fun i p hp => (hs i p hp).2) hb
      rw [hwindow, amplitudes_cosine hk0 hk hA]
    rw [amplitudeSpectrum_eq_ok_iff]
    refine ⟨dt, N, hperiod, hN, hgain, hoverlap.1, hoverlap.2, ?_⟩
    rw [hsums]
    congr 1
    refine List.ext_getElem (by simp) fun j h₁ h₂ => ?_
    simp only [List.getElem_map, List.getElem_range, List.getElem_zipIdx, Nat.zero_add, hone,
      mul_one_div, mul_div_cancel_left₀ _ hc]
  · have hrefused : (!(decide (0 ≤ options.overlap) && decide (options.overlap < 1))) = true := by
      simpa [imp_iff_not_or] using hoverlap
    simp only [amplitudeSpectrum, hperiod, hN, ok_bind, if_neg hgain, if_pos hrefused,
      throw_eq_error, error_bind, pure_eq_ok]

/-- Two turns in seven samples, of which a block shares four with the next one: three blocks, each
with a phase of its own. -/
theorem sinusoid_reads_amplitude_seven :
    let s : Series ℝ := ⟨(List.range 13).map fun i : Nat =>
      ⟨5 + i * (1 / 10), 3 * Real.cos (2 * Real.pi * (2 : Nat) * i / (7 : Nat) + 1)⟩⟩
    let options : SpectrumOptions ℝ := ⟨.uniform, some 7, 1 / 2, true⟩
    s.amplitudeSpectrum options = .ok ⟨[⟨0, 0⟩, ⟨10 / 7, 0⟩, ⟨20 / 7, 3⟩]⟩ := by
  intro s options
  have hsize : s.blockSize options = .ok 7 := by
    have hs : s.size = 13 := by simp [s, size]
    simp [blockSize, options, hs, minBlock]
  have hsamples : ∀ (i : Nat) p, s.samples[i]? = some p →
      p.x = 5 + i * (1 / 10) ∧
        p.y = 3 * Real.cos (2 * Real.pi * (2 : Nat) * i / (7 : Nat) + 1) := by
    intro i p hp
    simp only [s, List.getElem?_map, Option.map_eq_some_iff] at hp
    obtain ⟨i', hi', rfl⟩ := hp
    obtain ⟨hi, rfl⟩ := List.getElem?_eq_some_iff.1 hi'
    rw [List.getElem_range]
    exact ⟨rfl, rfl⟩
  have h := sinusoid_reads_amplitude rfl hsize (by decide : 0 < 2) (by decide) (by norm_num)
    (by norm_num) hsamples
  rw [h]
  have hoverlap : 0 ≤ options.overlap ∧ options.overlap < 1 := by
    simp only [options]
    norm_num
  rw [if_pos hoverlap]
  norm_num [List.range_succ]

end Series

end SignalCalc
