import SignalCalc.Proofs.Spectrum.Sinusoid

/-!
# The mean of a block and its spectrum

In exact arithmetic the bins of a block are linear in its samples (`Spectrum.bin_affine`): weighting
and transforming are. Taking the mean off is not, since a mean of at most `10 ^ -12` is left in
place. What is left of the mean adds so many times the spectrum of the window
(`Spectrum.bin_ofBlock_true`), so the bins follow a factor on the samples just if what is left of
the mean does, or if the window has no spectrum.

Main statement: `Spectrum.bins_scaled_iff`.
-/

namespace SignalCalc

/-! ## Means -/

/-- The mean of a signal, zero for the empty one. -/
noncomputable def mean (signal : List ℝ) : ℝ := total signal / (signal.length : ℝ)

/-- What is left of a mean after it has been taken off. A mean that is zero but for rounding is
not. -/
noncomputable def leftMean (m : ℝ) : ℝ := if 1e-12 < |m| then 0 else m

/-- A mean and its multiple are both taken off or both left, or the multiple is zero. -/
def ScalesAlong (c m : ℝ) : Prop := c * m = 0 ∨ (1e-12 < |c * m| ↔ 1e-12 < |m|)

/-- What is left of a mean is multiplied with it just if the mean scales along. -/
theorem leftMean_mul_iff {c m : ℝ} : leftMean (c * m) = c * leftMean m ↔ ScalesAlong c m := by
  rw [leftMean, leftMean, ScalesAlong]
  by_cases hcm : 1e-12 < |c * m| <;> by_cases hm : 1e-12 < |m|
  · rw [if_pos hcm, if_pos hm, mul_zero]
    exact iff_of_true rfl (.inr (iff_of_true hcm hm))
  · have hdiffer : ¬(1e-12 < |c * m| ↔ 1e-12 < |m|) := fun h => hm (h.1 hcm)
    rw [if_pos hcm, if_neg hm, eq_comm]
    exact (or_iff_left hdiffer).symm
  · have hdiffer : ¬(1e-12 < |c * m| ↔ 1e-12 < |m|) := fun h => hcm (h.2 hm)
    rw [if_neg hcm, if_pos hm, mul_zero]
    exact (or_iff_left hdiffer).symm
  · rw [if_neg hcm, if_neg hm]
    exact iff_of_true rfl (.inr (iff_of_false hcm hm))

/-- A mean that is taken off is so still under a factor of at least one. -/
theorem ScalesAlong.of_one_le {c m : ℝ} (hc : 1 ≤ |c|) (hm : 1e-12 < |m|) : ScalesAlong c m := by
  have hle : |m| ≤ |c * m| := by
    rw [abs_mul]
    exact le_mul_of_one_le_left (abs_nonneg m) hc
  exact .inr (iff_of_true (hm.trans_le hle) hm)

/-- The sum of values under a factor and an offset. -/
theorem total_map_affine (signal : List ℝ) (c d : ℝ) :
    total (signal.map fun y => c * y + d) = c * total signal + signal.length * d := by
  rw [total_eq_sum, total_eq_sum]
  induction signal with
  | nil => simp
  | cons y ys ih =>
    rw [List.map_cons, List.sum_cons, ih, List.sum_cons, List.length_cons]
    push_cast
    ring

/-- The mean scales along with the values. -/
theorem mean_scaled (signal : List ℝ) (c : ℝ) : mean (signal.map (c * ·)) = c * mean signal := by
  have h := total_map_affine signal c 0
  simp only [add_zero, mul_zero] at h
  rw [mean, mean, h, List.length_map, mul_div_assoc]

namespace Spectrum

/-- Taking the mean off moves all samples by the same. -/
theorem removeMean_eq (signal : List ℝ) :
    removeMean signal = signal.map fun y => 1 * y + (leftMean (mean signal) - mean signal) := by
  have habs : Elementary.abs (mean signal) = |mean signal| := ExactElementary.abs_eq _
  have hremove : removeMean signal =
      if 1e-12 < Elementary.abs (mean signal) then signal.map (· - mean signal) else signal := rfl
  rw [hremove, habs, leftMean]
  split
  · simp [sub_eq_add_neg]
  · simp

/-- What is left of the mean is all of it if it is faint, and nothing if it is not. -/
theorem mean_removeMean (signal : List ℝ) : mean (removeMean signal) = leftMean (mean signal) := by
  cases signal with
  | nil => simp [removeMean, mean, leftMean, total]
  | cons y ys =>
    have hn : ((y :: ys).length : ℝ) ≠ 0 := Nat.cast_ne_zero.2 (Nat.succ_ne_zero _)
    rw [removeMean_eq, mean, total_map_affine, List.length_map, one_mul, add_div,
      mul_div_cancel_left₀ _ hn]
    exact add_sub_cancel _ _

/-! ## Bins -/

/-- The complex number in a bin, zero behind the last one. -/
noncomputable def bin (s : Spectrum ℝ) (k : Nat) : ℂ := (s.bins.getD k 0).toComplex

/-- A bin of a block is the sum of its weighted and turned samples. -/
theorem bin_ofBlock_false (signal : List ℝ) (window : Window) {k : Nat} (hk : k < signal.length) :
    (ofBlock signal window false).bin k =
      ∑ j ∈ Finset.range signal.length, Fourier.unitRoot signal.length ^ (j * k) *
        ((signal.getD j 0 * window.weight j signal.length : ℝ) : ℂ) := by
  have hlength : ((window.apply signal).map Cplx.ofReal).length = signal.length := by
    simp [Window.apply]
  have hbin := Fourier.toComplex_transform ((window.apply signal).map Cplx.ofReal) (k := k)
    (by rwa [hlength])
  rw [bin]
  refine hbin.trans ?_
  rw [Fourier.dft, hlength]
  refine Finset.sum_congr rfl fun j hj => ?_
  have hj : j < signal.length := Finset.mem_range.1 hj
  congr 1
  simp [Window.apply, List.getD_eq_getElem?_getD, hj]

/-- The bins of a window by itself. -/
noncomputable def windowBin (window : Window) (n k : Nat) : ℂ :=
  (ofBlock (List.replicate n (1 : ℝ)) window false).bin k

/-- The bins of a signal under a factor and an offset. -/
theorem bin_affine (signal : List ℝ) (window : Window) (c d : ℝ) {k : Nat}
    (hk : k < signal.length) :
    (ofBlock (signal.map fun y => c * y + d) window false).bin k =
      c * (ofBlock signal window false).bin k + d * windowBin window signal.length k := by
  have hlength : (signal.map fun y => c * y + d).length = signal.length := List.length_map _
  have hones : (List.replicate signal.length (1 : ℝ)).length = signal.length :=
    List.length_replicate
  rw [windowBin, bin_ofBlock_false _ _ (hk.trans_eq hlength.symm), bin_ofBlock_false _ _ hk,
    bin_ofBlock_false _ _ (hk.trans_eq hones.symm), hlength, hones, Finset.mul_sum, Finset.mul_sum,
    ← Finset.sum_add_distrib]
  refine Finset.sum_congr rfl fun j hj => ?_
  have hj : j < signal.length := Finset.mem_range.1 hj
  have hmap : (signal.map fun y => c * y + d).getD j 0 = c * signal.getD j 0 + d := by
    simp [List.getD_eq_getElem?_getD, hj]
  have hone : (List.replicate signal.length (1 : ℝ)).getD j 0 = 1 := by
    simp [List.getD_eq_getElem?_getD, hj]
  rw [hmap, hone]
  push_cast
  ring

/-- With the mean taken off, what is left of it stands for the mean. -/
theorem bin_ofBlock_true (signal : List ℝ) (window : Window) {k : Nat} (hk : k < signal.length) :
    (ofBlock signal window true).bin k =
      (ofBlock signal window false).bin k +
        (leftMean (mean signal) - mean signal) * windowBin window signal.length k := by
  have h : ofBlock signal window true = ofBlock (removeMean signal) window false := rfl
  rw [h, removeMean_eq, bin_affine _ _ _ _ hk]
  push_cast
  rw [one_mul]

/-! ## Factors -/

/-- A factor of all bins is one of each bin, also behind the last one. -/
theorem getD_bins_scaled (s : Spectrum ℝ) (c : ℝ) (k : Nat) :
    ((s.bins.map (Cplx.ofReal c * ·)).getD k 0).toComplex = c * s.bin k := by
  rw [bin, List.getD_eq_getElem?_getD, List.getD_eq_getElem?_getD, List.getElem?_map]
  cases s.bins[k]? with
  | none => exact (mul_zero _).symm
  | some z => rw [Option.map_some, Option.getD_some, Option.getD_some, Cplx.toComplex_mul,
      Cplx.toComplex_ofReal]

/-- Spectra of one size are related by a factor if their bins are. -/
theorem bins_eq_map_iff {s t : Spectrum ℝ} (h : s.size = t.size) (c : ℝ) :
    s.bins = t.bins.map (Cplx.ofReal c * ·) ↔ ∀ k < t.size, s.bin k = c * t.bin k := by
  constructor
  · intro hs k _
    rw [← getD_bins_scaled, ← hs, bin]
  · intro hbin
    have hlength : s.bins.length = t.bins.length := h
    refine List.ext_getElem (by rw [List.length_map, hlength]) fun k h₁ h₂ => ?_
    have hk : k < t.bins.length := hlength ▸ h₁
    have heq := hbin k hk
    rw [← getD_bins_scaled, bin, List.getD_eq_getElem _ _ h₁, List.getD_eq_getElem _ _ h₂] at heq
    exact Cplx.toComplex_injective heq

/-- A factor leaves the number of bins. -/
theorem size_ofBlock_scaled (signal : List ℝ) (window : Window) (subtractMean : Bool) (c : ℝ) :
    (ofBlock (signal.map (c * ·)) window subtractMean).size =
      (ofBlock signal window subtractMean).size := by
  rw [size_ofBlock, size_ofBlock, List.length_map]

/-- Without taking means off, the bins are multiplied with the samples. -/
theorem bins_scaled (signal : List ℝ) (window : Window) (c : ℝ) :
    (ofBlock (signal.map (c * ·)) window false).bins =
      (ofBlock signal window false).bins.map (Cplx.ofReal c * ·) := by
  rw [bins_eq_map_iff (size_ofBlock_scaled signal window false c)]
  intro k hk
  rw [size_ofBlock] at hk
  have h := bin_affine signal window c 0 hk
  simpa using h

/-- With means taken off, the bins are multiplied with the samples just if the mean scales along, or
if there is nothing that the mean could add. -/
theorem bins_scaled_iff (signal : List ℝ) (window : Window) (c : ℝ) :
    (ofBlock (signal.map (c * ·)) window true).bins =
        (ofBlock signal window true).bins.map (Cplx.ofReal c * ·) ↔
      ScalesAlong c (mean signal) ∨ ∀ k < signal.length, windowBin window signal.length k = 0 := by
  have hdiffer : ∀ k < signal.length, (ofBlock (signal.map (c * ·)) window true).bin k =
      c * (ofBlock signal window true).bin k +
        (leftMean (c * mean signal) - c * leftMean (mean signal) : ℝ) *
          windowBin window signal.length k := by
    intro k hk
    have hplain := bin_affine signal window c 0 hk
    simp only [add_zero, Complex.ofReal_zero, zero_mul] at hplain
    rw [bin_ofBlock_true _ _ (by rwa [List.length_map]), hplain, bin_ofBlock_true _ _ hk,
      mean_scaled, List.length_map]
    push_cast
    ring
  rw [bins_eq_map_iff (size_ofBlock_scaled signal window true c), size_ofBlock, ← leftMean_mul_iff]
  constructor
  · intro h
    rw [or_iff_not_imp_left]
    intro hne k hk
    have hzero := (hdiffer k hk).symm.trans (h k hk)
    rw [add_eq_left, mul_eq_zero, Complex.ofReal_eq_zero, sub_eq_zero] at hzero
    exact hzero.resolve_left hne
  · rintro (h | h) k hk
    · rw [hdiffer k hk, h, sub_self, Complex.ofReal_zero, zero_mul, add_zero]
    · rw [hdiffer k hk, h k hk, mul_zero, add_zero]

end Spectrum

end SignalCalc
