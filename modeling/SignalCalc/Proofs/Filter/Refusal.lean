import Mathlib.Analysis.Polynomial.Basic
import SignalCalc.Proofs.Filter.Prototype

/-!
# Filters that are refused

A discrete filter is refused for a leading coefficient that is zero, but also for one that is small
beside another coefficient. The leading coefficient of a classical filter is the value of a stable
polynomial at a positive number, so it is never zero; up to degree 55 no other coefficient is too
great for it. At high rates the coefficients approach binomial ones, but for a factor and their
signs, and from degree 56 on a binomial coefficient is above the inverse of the rounding error. So
every classical filter of such a degree is refused at high rates (`exists_dominated`).

Main statements: `discretized_up_to_degree_55`, `order_64_refused`.
-/

namespace SignalCalc

open Polynomial DigitalFilter

/-! ## Coefficients as functions of the rate -/

section Coefficients

variable {α : Type} [Field α]

/-- The binomial theorem for the coefficients of a power. -/
theorem coeff_linear_pow (a b : α) (n m : Nat) :
    ((C a + C b * X) ^ n).coeff m = a ^ (n - m) * n.choose m * b ^ m := by
  have h : (C a + C b * X) ^ n = ((X + C a) ^ n).comp (C b * X) := by
    simp [add_comm]
  rw [h, comp_C_mul_X_coeff, coeff_X_add_C_pow]

/-- The substitution is made in the base of a power. -/
theorem discretized_pow (k : α) {d : Nat} {p : α[X]} (hp : p.natDegree ≤ d) (m : Nat) :
    discretized k (m * d) (p ^ m) = discretized k d p ^ m := by
  induction m with
  | zero => simpa using discretized_X_pow k (Nat.le_refl 0)
  | succ m ih =>
    rw [Nat.succ_mul, pow_succ, discretized_mul k (natDegree_pow_le_of_le m hp) hp, ih, pow_succ]

/-- What becomes of a section of the first order. -/
theorem discretized_first (k omega : α) :
    discretized k 1 (X + C omega) = C (k + omega) + C (omega - k) * X := by
  have h : X + C omega = X ^ 1 + C omega * X ^ 0 := by ring
  rw [h, discretized_add, discretized_C_mul, discretized_X_pow k (Nat.le_refl 1),
    discretized_X_pow k (Nat.zero_le 1)]
  simp only [C_add, C_sub, C_pow]
  ring

/-- A discrete coefficient as a polynomial in the factor of the fraction. -/
noncomputable def coefficientAt (n m : Nat) (p : α[X]) : α[X] :=
  ∑ i ∈ Finset.range (n + 1),
    C (p.coeff i * ((1 - X) ^ i * (1 + X) ^ (n - i) : α[X]).coeff m) * X ^ i

/-- The value at a factor is the discrete coefficient for this factor. -/
theorem eval_coefficientAt (k : α) (n m : Nat) (p : α[X]) :
    (coefficientAt n m p).eval k = (discretized k n p).coeff m := by
  rw [discretized_eq_sum, finsetSum_coeff, coefficientAt, eval_finsetSum]
  refine Finset.sum_congr rfl fun i _ => ?_
  rw [eval_mul, eval_C, eval_pow, eval_X, coeff_C_mul]
  ring

/-- A discrete coefficient depends on the factor by a polynomial of the order. -/
theorem natDegree_coefficientAt_le (n m : Nat) (p : α[X]) :
    (coefficientAt n m p).natDegree ≤ n := by
  refine natDegree_sum_le_of_forall_le _ _ fun i hi => ?_
  exact (natDegree_C_mul_X_pow_le _ _).trans (Nat.le_of_lt_succ (Finset.mem_range.1 hi))

/-- The highest coefficient in the factor is a binomial one, but for its sign. -/
theorem coeff_coefficientAt (n m : Nat) (p : α[X]) :
    (coefficientAt n m p).coeff n = p.coeff n * (n.choose m * (-1) ^ m) := by
  have hone : (1 - X : α[X]) ^ n = (C 1 + C (-1) * X) ^ n := by
    simp [sub_eq_add_neg]
  rw [coefficientAt, finsetSum_coeff, Finset.sum_eq_single n]
  · rw [coeff_C_mul_X_pow, if_pos rfl, Nat.sub_self, pow_zero, mul_one, hone, coeff_linear_pow,
      one_pow, one_mul]
  · intro i _ hi
    rw [coeff_C_mul_X_pow, if_neg hi.symm]
  · intro hn
    exact absurd (Finset.self_mem_range_succ n) hn

end Coefficients

/-- A binomial coefficient that is above the inverse of the rounding error. -/
theorem two_pow_lt_choose {n : Nat} (hn : 56 ≤ n) : 2 ^ 52 < n.choose 28 :=
  calc 2 ^ 52 < Nat.choose 56 28 := by
        rw [Nat.choose_eq_descFactorial_div_factorial]
        decide
    _ ≤ n.choose 28 := Nat.choose_le_choose 28 hn

/-- From degree 56 on the coefficient with number 28 outgrows the leading one, beyond some factor.
Their difference, with the rounding error taken in, has a positive highest coefficient. -/
theorem exists_dominated {p : ℝ[X]} {n : Nat} (hp : p.Monic) (hd : p.natDegree = n)
    (hn : 56 ≤ n) :
    ∃ k₀, ∀ k, k₀ ≤ k → p.eval k ≤ roundingError * |(discretized k n p).coeff 28| := by
  set excess : ℝ[X] := C roundingError * coefficientAt n 28 p - p with hexcess
  have hlead : p.coeff n = 1 := hd ▸ hp.coeff_natDegree
  have hcoeff : 0 < excess.coeff n := by
    have hchoose : (2 ^ 52 : ℝ) < n.choose 28 := by exact_mod_cast two_pow_lt_choose hn
    have hsign : (-1 : ℝ) ^ 28 = 1 := by norm_num
    rw [hexcess, coeff_sub, coeff_C_mul, coeff_coefficientAt, hlead, one_mul, hsign, mul_one,
      roundingError_eq, sub_pos, one_div, ← div_eq_inv_mul, lt_div_iff₀ (by positivity), one_mul]
    exact hchoose
  have hdegree : excess.natDegree = n := by
    refine natDegree_eq_of_le_of_coeff_ne_zero ?_ hcoeff.ne'
    have hle : (C roundingError * coefficientAt n 28 p).natDegree ≤ n :=
      (natDegree_C_mul_le _ _).trans (natDegree_coefficientAt_le n 28 p)
    exact (natDegree_sub_le_of_le hle hd.le).trans_eq (max_self n)
  have hpos : 0 < excess.degree := natDegree_pos_iff_degree_pos.1 (by omega)
  have hnonneg : 0 ≤ excess.leadingCoeff := by
    rw [leadingCoeff, hdegree]
    exact hcoeff.le
  have htends := tendsto_atTop_of_leadingCoeff_nonneg excess hpos hnonneg
  obtain ⟨k₀, hk₀⟩ := (htends.eventually_ge_atTop 0).exists_forall_of_atTop
  refine ⟨k₀, fun k hk => ?_⟩
  have h := hk₀ k hk
  rw [hexcess, eval_sub, eval_mul, eval_C, eval_coefficientAt] at h
  calc p.eval k ≤ roundingError * (discretized k n p).coeff 28 := by linarith
    _ ≤ roundingError * |(discretized k n p).coeff 28| :=
      mul_le_mul_of_nonneg_left (le_abs_self _) roundingError_pos.le

/-! ## The classical filters -/

namespace TransferFunction.Prototype

variable {h : TransferFunction ℝ} {n : Nat} {low high rate : ℝ}

/-- The leading coefficient of a discrete denominator is positive at every positive rate. -/
theorem evaluate_pos (hp : h.Prototype n low high) (hr : 0 < rate) :
    0 < h.denominator.evaluate (2 * rate) := by
  rw [← Poly.eval_toPolynomial]
  exact eval_pos_of_coeff_nonneg hp.denominator.monic.ne_zero hp.positive.denominator.coeff_nonneg
    (by linarith)

/-- A coefficient by which a filter is refused. The leading coefficient that the error names is
positive. -/
theorem ofTransferFunction_eq_error (hp : h.Prototype n low high) (hr : 0 < rate) {m : Nat}
    (hm : m ≤ n) (hle : h.denominator.evaluate (2 * rate) ≤
      roundingError * |(discretized (2 * rate) n h.denominator.toPolynomial).coeff m|) :
    ofTransferFunction rate h =
      .error (.degenerate (.leading (h.denominator.evaluate (2 * rate)))) := by
  obtain ⟨b, feedback, hb, -, he, hmem⟩ :=
    ofTransferFunction_eq hp.degree?_eq hp.positive.natDegree_le hr
  rw [he]
  refine ofCoefficients_eq_error hb fun hf => ?_
  have hlt := (exists_ofCoefficients_iff hb).1 hf _ ((hmem _).2 ⟨m, hm, rfl⟩)
  rw [abs_of_pos (hp.evaluate_pos hr)] at hlt
  exact absurd hle (not_le.2 hlt)

end TransferFunction.Prototype

/-- **The classical filters that can be made.** At every positive rate the leading coefficient of a
classical filter is positive. The filter can be made if and only if no coefficient of its
denominator, by the rounding error, is as great as the leading one; otherwise it is refused with an
error that names the leading one. Up to degree 55 of the prototype, which is order 55 of a low pass
or a high pass and order 27 of a band filter, it is refused at no rate; from degree 56 on it is
refused at every rate from some rate on, whatever the frequencies are. Coefficients of any other
origin are refused by the same comparison. -/
theorem discretized_up_to_degree_55 {s : FilterSettings ℝ} {h : TransferFunction ℝ}
    (hk : s.kind ≠ .custom) (hs : s.transferFunction = .ok h) :
    (∀ rate, 0 < rate → ∃ b a₀ feedback, h.bilinear rate = .ok (b, a₀ :: feedback) ∧ 0 < a₀ ∧
      ((∃ f, ofSettings rate s = .ok f) ↔ ∀ c ∈ a₀ :: feedback, roundingError * |c| < a₀) ∧
      ((¬∃ f, ofSettings rate s = .ok f) →
        ofSettings rate s = .error (.degenerate (.leading a₀)))) ∧
    (s.prototypeDegree ≤ 55 → ∀ rate, 0 < rate → ∃ f, ofSettings rate s = .ok f) ∧
    (56 ≤ s.prototypeDegree → ∃ r₀, ∀ rate, r₀ ≤ rate →
      ∃ a₀, 0 < a₀ ∧ ofSettings rate s = .error (.degenerate (.leading a₀))) ∧
    ∀ (b feedback : List ℝ) (a₀ : ℝ), b ≠ [] →
      ((∃ f, ofCoefficients b (a₀ :: feedback) = .ok f) ↔
        ∀ c ∈ a₀ :: feedback, roundingError * |c| < |a₀|) := by
  have hp := FilterSettings.prototype_of_transferFunction hk hs
  have hsettings (rate : ℝ) : ofSettings rate s = ofTransferFunction rate h :=
    FilterSettings.ofSettings_eq hs
  refine ⟨fun rate hr => ?_, fun hle rate hr => FilterSettings.exists_ofSettings hk hs hle hr,
    fun hge => ?_, fun b feedback a₀ hb => exists_ofCoefficients_iff hb⟩
  · obtain ⟨b, feedback, hb, hba, he, -⟩ :=
      ofTransferFunction_eq hp.degree?_eq hp.positive.natDegree_le hr
    have hpos := hp.evaluate_pos hr
    rw [hsettings, he, exists_ofCoefficients_iff hb, abs_of_pos hpos]
    refine ⟨b, _, feedback, hba, hpos, Iff.rfl, fun hc => ofCoefficients_eq_error hb ?_⟩
    rwa [exists_ofCoefficients_iff hb, abs_of_pos hpos]
  · obtain ⟨k₀, hk₀⟩ :=
      exists_dominated hp.denominator.monic hp.denominator.natDegree_eq hge
    refine ⟨max k₀ 1, fun rate hrate => ?_⟩
    have hr : 0 < rate := zero_lt_one.trans_le ((le_max_right k₀ 1).trans hrate)
    have hk : k₀ ≤ 2 * rate := by linarith [(le_max_left k₀ 1).trans hrate]
    have hle := hk₀ (2 * rate) hk
    rw [Poly.eval_toPolynomial] at hle
    exact ⟨_, hp.evaluate_pos hr,
      (hsettings rate).trans (hp.ofTransferFunction_eq_error hr (by omega) hle)⟩

/-- A Butterworth band stop of order 27 at a million samples per second, and a Butterworth low pass
of order 56; coefficients whose leading one is one. -/
theorem discretized_up_to_degree_55_butterworth :
    let s : FilterSettings ℝ := ⟨.bandStop, 27, 2, 0, 2, false, true, "", ""⟩
    let t : FilterSettings ℝ := ⟨.lowPass, 56, 1, 0, 0, false, true, "", ""⟩
    (∃ f, ofSettings (10 ^ 6) s = .ok f) ∧
    (∃ r₀, ∀ rate, r₀ ≤ rate →
      ∃ a₀, 0 < a₀ ∧ ofSettings rate t = .error (.degenerate (.leading a₀))) ∧
    ¬∃ f : DigitalFilter ℝ, ofCoefficients [1] [1, 10 ^ 16] = .ok f := by
  intro s t
  have hs : s.IsAccepted :=
    ⟨⟨by decide, by decide, by simp [s]⟩, by norm_num [s], by norm_num [s]⟩
  have ht : t.IsAccepted := ⟨⟨by decide, by decide, by simp [t]⟩, by norm_num [t]⟩
  obtain ⟨h, hh, -⟩ := FilterSettings.transferFunction_of_isAccepted hs
  obtain ⟨g, hg, -⟩ := FilterSettings.transferFunction_of_isAccepted ht
  obtain ⟨-, hmade, -, hguard⟩ := discretized_up_to_degree_55 (s := s) (by decide) hh
  obtain ⟨-, -, hrefused, -⟩ := discretized_up_to_degree_55 (s := t) (by decide) hg
  refine ⟨hmade (by decide) _ (by norm_num), hrefused (by decide), fun hf => ?_⟩
  have hlt := (hguard [1] [10 ^ 16] 1 (List.cons_ne_nil _ _)).1 hf (10 ^ 16) (by simp)
  norm_num [roundingError_eq] at hlt

/-- Without resonance the sections have all their poles at one point. -/
theorem FilterSettings.toPolynomial_sectionDenominator_one (n : Nat) (omega : ℝ) :
    (sectionDenominator n omega 1).toPolynomial = (X + C omega) ^ n := by
  have hsquare : X ^ 2 + C (2.0 * 1 * omega) * X + C (omega * omega) = (X + C omega) ^ 2 := by
    norm_num only [mul_one, C_mul]
    rw [C_ofNat]
    ring
  rw [toPolynomial_sectionDenominator, hsquare, ← pow_mul, ← pow_add, Nat.div_add_mod]

/-- The coefficient in the middle of the sixty-fourth power of `a - b w`, where `a` is not much
greater than `b`. -/
theorem pow_le_middle {a b : ℝ} (ha : 0 ≤ a) (hb : 0 ≤ b) (h : a ≤ 6 / 5 * b) :
    a ^ 64 ≤ roundingError * |a ^ 32 * Nat.choose 64 32 * (-b) ^ 32| := by
  have hchoose : (6 / 5 : ℝ) ^ 32 ≤ roundingError * Nat.choose 64 32 := by
    rw [Nat.choose_eq_descFactorial_div_factorial, roundingError_eq]
    norm_num
  have hpow : a ^ 32 ≤ roundingError * Nat.choose 64 32 * b ^ 32 :=
    calc a ^ 32 ≤ (6 / 5 * b) ^ 32 := pow_le_pow_left₀ ha h 32
      _ = (6 / 5) ^ 32 * b ^ 32 := mul_pow _ _ _
      _ ≤ roundingError * Nat.choose 64 32 * b ^ 32 :=
        mul_le_mul_of_nonneg_right hchoose (pow_nonneg hb 32)
  have habs : |a ^ 32 * Nat.choose 64 32 * (-b) ^ 32| = a ^ 32 * Nat.choose 64 32 * b ^ 32 := by
    rw [Even.neg_pow (by decide), abs_of_nonneg (by positivity)]
  calc a ^ 64 = a ^ 32 * a ^ 32 := by ring
    _ ≤ a ^ 32 * (roundingError * Nat.choose 64 32 * b ^ 32) :=
      mul_le_mul_of_nonneg_left hpow (pow_nonneg ha 32)
    _ = roundingError * |a ^ 32 * Nat.choose 64 32 * (-b) ^ 32| := by
      rw [habs]
      ring

/-- A low pass of the highest order, with its poles at one point, at one hertz and a hundred samples
per second: its settings are accepted, its leading coefficient is positive, and it is refused, since
the coefficient in the middle is too great. -/
theorem order_64_refused :
    let s : FilterSettings ℝ := ⟨.lowPass, 64, 1, 1, 0, false, false, "", ""⟩
    (∃ h, s.transferFunction = .ok h) ∧
      ∃ a₀, 0 < a₀ ∧ ofSettings 100 s = .error (.degenerate (.leading a₀)) := by
  intro s
  have hs : s.IsAccepted := ⟨⟨by decide, by decide, fun _ => by norm_num [s]⟩, by norm_num [s]⟩
  have hr : (0 : ℝ) < 100 := by norm_num
  obtain ⟨h, hh, hp⟩ := FilterSettings.transferFunction_of_isAccepted hs
  have hden : h.denominator.toPolynomial = (X + C (2 * Real.pi)) ^ 64 := by
    obtain ⟨-, -, hlow⟩ := bind_eq_ok_iff.1 hh
    obtain ⟨-, -, -, rfl⟩ := TransferFunction.make_eq_ok_iff.1
      (FilterSettings.lowPass_eq_ok_iff.1 hlow).2
    rw [FilterSettings.denominatorAt, if_neg Bool.false_ne_true,
      FilterSettings.toPolynomial_sectionDenominator_one, FilterSettings.angular_eq, mul_one]
  have hdiscrete : discretized (2 * 100) 64 h.denominator.toPolynomial =
      (C (2 * 100 + 2 * Real.pi) + C (2 * Real.pi - 2 * 100) * X) ^ 64 := by
    rw [hden, ← discretized_first]
    exact discretized_pow _ (natDegree_X_add_C _).le 64
  have hle : h.denominator.evaluate (2 * 100) ≤
      roundingError * |(discretized (2 * 100) 64 h.denominator.toPolynomial).coeff 32| := by
    have hpi := Real.pi_le_four
    have hb : 2 * Real.pi - 2 * 100 = -(2 * 100 - 2 * Real.pi) := by ring
    rw [← Poly.eval_toPolynomial, hdiscrete, coeff_linear_pow, hden, eval_pow, eval_add, eval_X,
      eval_C, hb]
    exact pow_le_middle (by positivity) (by linarith) (by linarith)
  exact ⟨⟨h, hh⟩, _, hp.evaluate_pos hr, (FilterSettings.ofSettings_eq hh).trans
    (hp.ofTransferFunction_eq_error hr (show 32 ≤ 64 by decide) hle)⟩

end SignalCalc
