import SignalCalc.Proofs.Filter.Prototype

/-!
# Stability of the classical filters

The bilinear transform puts a point that is not to the left of the imaginary axis in the place of
every point on or outside the unit circle, but for minus one, where only the highest coefficient
counts. So a stable polynomial becomes coefficients that vanish nowhere there.

Main statement: `classical_filters_are_stable`.
-/

namespace SignalCalc

open Polynomial DigitalFilter

/-- A point that is not inside the unit circle stands for one that is not on the left. -/
theorem re_continuousPoint_nonneg {rate : ℝ} (hr : 0 < rate) {z : ℂ} (hz : 1 ≤ ‖z‖) :
    0 ≤ (continuousPoint rate z).re := by
  have hnorm : 1 ≤ z.re * z.re + z.im * z.im := by
    rw [← Complex.normSq_apply, Complex.normSq_eq_norm_sq]
    exact one_le_pow₀ hz
  have hfraction : ((z - 1) / (z + 1)).re =
      (z.re * z.re + z.im * z.im - 1) / Complex.normSq (z + 1) := by
    rw [Complex.div_re, ← add_div]
    congr 1
    simp only [Complex.sub_re, Complex.add_re, Complex.sub_im, Complex.add_im, Complex.one_re,
      Complex.one_im]
    ring
  have hscale : continuousPoint rate z = ((2 * rate : ℝ) : ℂ) * ((z - 1) / (z + 1)) := by
    rw [continuousPoint, Complex.coe_algebraMap, Complex.ofReal_mul, Complex.ofReal_ofNat]
  rw [hscale, Complex.re_ofReal_mul, hfraction]
  exact mul_nonneg (by positivity) (div_nonneg (sub_nonneg.2 hnorm) (Complex.normSq_nonneg _))

/-- What the transform makes of a stable polynomial does not vanish on or outside the unit circle.
-/
theorem StableMonic.aeval_discretized_ne {p : ℝ[X]} {n : Nat} (h : StableMonic p n) {rate : ℝ}
    (hr : 0 < rate) {z : ℂ} (hz : 1 ≤ ‖z‖) :
    aeval z⁻¹ (discretized (2 * rate) n p) ≠ 0 := by
  have hrate : (algebraMap ℝ ℂ) rate ≠ 0 := by simpa using hr.ne'
  by_cases hone : z = -1
  · have hlead : p.coeff n = 1 := h.natDegree_eq ▸ h.monic.coeff_natDegree
    rw [hone, inv_neg_one, aeval_discretized_neg_one, hlead, map_one, mul_one, map_mul, map_ofNat]
    exact pow_ne_zero n (mul_ne_zero two_ne_zero (mul_ne_zero two_ne_zero hrate))
  · have hzero : z ≠ 0 := norm_pos_iff.1 (zero_lt_one.trans_le hz)
    have hadd : z + 1 ≠ 0 := fun h => hone (eq_neg_of_add_eq_zero_left h)
    have hvalue : aeval (continuousPoint rate z) p ≠ 0 := fun h0 =>
      absurd (h.re_neg _ h0) (not_lt.2 (re_continuousPoint_nonneg hr hz))
    rw [aeval_discretized_inv rate h.natDegree_eq.le hzero hone]
    exact mul_ne_zero (div_ne_zero (pow_ne_zero n hadd) (pow_ne_zero n hzero)) hvalue

/-- **The classical filters are stable.** At every positive rate the transfer function that the
settings of a classical filter describe is made discrete, and the values of its denominator vanish
nowhere on or outside the unit circle. The same holds of the normalized denominator of a filter that
is made with the settings. -/
theorem classical_filters_are_stable {s : FilterSettings ℝ} {h : TransferFunction ℝ} {rate : ℝ}
    (hk : s.kind ≠ .custom) (hs : s.transferFunction = .ok h) (hr : 0 < rate) :
    (∃ b a, h.bilinear rate = .ok (b, a) ∧ ∀ z : ℂ, 1 ≤ ‖z‖ → delaySum a z ≠ 0) ∧
      ∀ f, ofSettings rate s = .ok f → ∀ z : ℂ, 1 ≤ ‖z‖ → delaySum f.a z ≠ 0 := by
  have hp := FilterSettings.prototype_of_transferFunction hk hs
  have hd := hp.degree?_eq
  refine ⟨⟨_, _, TransferFunction.bilinear_eq_ok_iff.2 ⟨_, hd, hp.positive.natDegree_le, hr, rfl⟩,
    fun z hz => ?_⟩, fun f hf z hz => ?_⟩
  · rw [delaySum_eq, Poly.polynomialOf_substitute _ (Poly.natDegree_eq_of_degree? hd).le]
    exact hp.denominator.aeval_discretized_ne hr hz
  · rw [FilterSettings.ofSettings_eq hs] at hf
    obtain ⟨n, c, hn, -, hc, -, ha⟩ := polynomialOf_ofTransferFunction hf
    cases hn.symm.trans hd
    rw [delaySum_eq, ha, map_mul, aeval_C]
    exact mul_ne_zero (hp.denominator.aeval_discretized_ne hr hz) (by simpa using hc)

/-- An overdamped high pass of third order at one hertz and a Butterworth band pass of fourth order
from one to three hertz, both at ten samples per second: at minus one, and at twice the imaginary
unit. -/
theorem classical_filters_are_stable_at :
    let s : FilterSettings ℝ := ⟨.highPass, 3, 1, 2, 0, false, false, "", ""⟩
    let t : FilterSettings ℝ := ⟨.bandPass, 4, 2, 0, 2, false, true, "", ""⟩
    (∃ h b a, s.transferFunction = .ok h ∧ h.bilinear 10 = .ok (b, a) ∧
      delaySum a (-1 : ℂ) ≠ 0) ∧
    ∃ f, ofSettings 10 t = .ok f ∧ delaySum f.a (2 * Complex.I) ≠ 0 := by
  intro s t
  have hr : (0 : ℝ) < 10 := by norm_num
  have hs : s.IsAccepted := ⟨⟨by decide, by decide, fun _ => by norm_num [s]⟩, by norm_num [s]⟩
  have ht : t.IsAccepted := ⟨⟨by decide, by decide, by simp [t]⟩, by norm_num [t], by norm_num [t]⟩
  obtain ⟨h, hh, -⟩ := FilterSettings.transferFunction_of_isAccepted hs
  obtain ⟨g, hg, -⟩ := FilterSettings.transferFunction_of_isAccepted ht
  obtain ⟨f, hf⟩ := FilterSettings.exists_ofSettings (s := t) (by decide) hg (by decide) hr
  obtain ⟨⟨b, a, hba, hstable⟩, -⟩ := classical_filters_are_stable (s := s) (by decide) hh hr
  have hfilter := (classical_filters_are_stable (s := t) (by decide) hg hr).2
  exact ⟨⟨h, b, a, hh, hba, hstable _ (by simp)⟩, f, hf, hfilter f hf _ (by simp)⟩

end SignalCalc
