import Mathlib.FieldTheory.KummerExtension
import Mathlib.RingTheory.RootsOfUnity.Complex
import SignalCalc.Proofs.Filter.Prototype

/-!
# Maximally flat filters

The poles of a Butterworth filter of order `n` are every second power of a primitive `4 n`-th root
of unity, as far as they lie to the left (`toComplex_pole`). Their squares are all the `n`-th roots
of one number, so the product of `X - r ^ 2` over the poles has two terms only
(`prod_sub_pole_sq`). That product is the denominator times its reflection in zero, but for the sign
(`rootProduct_mul_comp_neg`), and on the imaginary axis the reflection is the conjugate. So the
magnitude of the denominator there has two terms as well.

Main statement: `butterworth_is_maximally_flat`.
-/

namespace SignalCalc

open Polynomial

/-- A product over roots times its reflection has the squares of the roots for roots. -/
theorem rootProduct_mul_comp_neg (roots : List (Cplx ℝ)) :
    rootProduct roots * (rootProduct roots).comp (-X) =
      (-1) ^ roots.length *
        ((roots.map fun r : Cplx ℝ => X - C (r.toComplex ^ 2)).prod).comp (X ^ 2) := by
  induction roots with
  | nil => simp [rootProduct]
  | cons r roots ih =>
    have hcons : rootProduct (r :: roots) = (X - C r.toComplex) * rootProduct roots := rfl
    rw [hcons, mul_comp, mul_mul_mul_comm, ih, List.map_cons, List.prod_cons, mul_comp,
      List.length_cons, pow_succ]
    simp only [sub_comp, X_comp, C_comp]
    rw [C_pow]
    ring

namespace FilterSettings

/-! ## The poles -/

/-- One step of the `4 n`-th part of a turn, counter-clockwise. -/
noncomputable def poleRoot (n : Nat) : ℂ :=
  Complex.exp (Real.pi * Complex.I / (2 * n : Nat))

variable {n : Nat}

/-- The step is a primitive root of unity. -/
theorem isPrimitiveRoot_poleRoot (hn : n ≠ 0) : IsPrimitiveRoot (poleRoot n) (4 * n) := by
  have hn' : (n : ℂ) ≠ 0 := Nat.cast_ne_zero.2 hn
  have hangle : (Real.pi * Complex.I / (2 * n : ℕ) : ℂ) =
      2 * Real.pi * Complex.I / (4 * n : ℕ) := by
    push_cast
    field_simp
    norm_num
  rw [poleRoot, hangle]
  exact Complex.isPrimitiveRoot_exp _ (by omega)

/-- Half a turn. -/
theorem poleRoot_pow_half (hn : n ≠ 0) : poleRoot n ^ (2 * n) = -1 := by
  have hn' : (n : ℂ) ≠ 0 := Nat.cast_ne_zero.2 hn
  have hangle : ((2 * n : ℕ) * (Real.pi * Complex.I / (2 * n : ℕ)) : ℂ) = Real.pi * Complex.I := by
    push_cast
    field_simp
  rw [poleRoot, ← Complex.exp_nat_mul, hangle, Complex.exp_pi_mul_I]

/-- The poles are powers of the step, times the frequency. -/
theorem toComplex_pole (omega : ℝ) (hn : n ≠ 0) (k : Nat) :
    (Cplx.ofPolar omega (poleAngle n (k + 1))).toComplex =
      omega * poleRoot n ^ (2 * (k + 1) + n - 1) := by
  have hn' : (n : ℂ) ≠ 0 := Nat.cast_ne_zero.2 hn
  have hpi : (Elementary.pi : ℝ) = Real.pi := rfl
  have hangle : ((poleAngle n (k + 1) : ℝ) : ℂ) * Complex.I =
      (2 * (k + 1) + n - 1 : ℕ) * (Real.pi * Complex.I / (2 * n : ℕ)) := by
    rw [poleAngle, hpi, Nat.cast_sub (by omega)]
    norm_num
    field_simp
  rw [Cplx.toComplex_ofPolar, hangle, Complex.exp_nat_mul]
  rfl

/-- The poles, counted from one. -/
theorem map_toComplex_butterworthPoles (omega : ℝ) (hn : n ≠ 0) :
    (butterworthPoles n omega).map Cplx.toComplex =
      (List.range' 1 n).map fun k => omega * poleRoot n ^ (2 * k + n - 1) := by
  rw [butterworthPoles, List.range'_eq_map_range, List.map_map, List.map_map]
  refine List.map_congr_left fun k _ => ?_
  rw [Function.comp_apply, Function.comp_apply, toComplex_pole omega hn, Nat.add_comm 1 k]

/-- The squares of the poles are all the roots of one binomial. -/
theorem prod_sub_pole_sq (omega : ℝ) (hn : n ≠ 0) :
    ((butterworthPoles n omega).map fun r : Cplx ℝ => X - C (r.toComplex ^ 2)).prod =
      X ^ n + C ((-1) ^ n * (omega : ℂ) ^ (2 * n)) := by
  set first : ℂ := (omega * poleRoot n ^ (n + 1)) ^ 2 with hfirst
  have hroot : IsPrimitiveRoot (poleRoot n ^ 4) n :=
    (isPrimitiveRoot_poleRoot hn).pow (by omega) rfl
  have hpow : first ^ n = -((-1) ^ n * (omega : ℂ) ^ (2 * n)) := by
    calc first ^ n = (omega : ℂ) ^ (2 * n) * (poleRoot n ^ (2 * n)) ^ (n + 1) := by
          rw [hfirst]
          ring
      _ = _ := by
          rw [poleRoot_pow_half hn]
          ring
  have hpole : ∀ k, (Cplx.ofPolar omega (poleAngle n (k + 1))).toComplex ^ 2 =
      (poleRoot n ^ 4) ^ k * first := by
    intro k
    have hexp : 2 * (k + 1) + n - 1 = 2 * k + (n + 1) := by omega
    rw [toComplex_pole omega hn, hexp, hfirst]
    ring
  calc ((butterworthPoles n omega).map fun r : Cplx ℝ => X - C (r.toComplex ^ 2)).prod
      = ((List.range n).map fun k => X - C ((poleRoot n ^ 4) ^ k * first)).prod := by
        rw [butterworthPoles, List.map_map]
        simp only [Function.comp_def, hpole]
    _ = ∏ k ∈ Finset.range n, (X - C ((poleRoot n ^ 4) ^ k * first)) :=
        (Multiset.prod_coe _).symm
    _ = X ^ n - C (first ^ n) := (X_pow_sub_C_eq_prod hroot (Nat.pos_of_ne_zero hn) rfl).symm
    _ = _ := by rw [hpow, C_neg, sub_neg_eq_add]

/-! ## The denominator -/

/-- In the product of the denominator with its reflection all middle powers cancel. -/
theorem butterworthDenominator_mul_comp_neg (hn : n ≠ 0) (omega : ℝ) :
    (butterworthDenominator n omega).toPolynomial *
        (butterworthDenominator n omega).toPolynomial.comp (-X) =
      C (omega ^ (2 * n)) + C ((-1) ^ n) * X ^ (2 * n) := by
  apply map_injective (algebraMap ℝ ℂ) (algebraMap ℝ ℂ).injective
  have hmap : (butterworthDenominator n omega).toPolynomial.map (algebraMap ℝ ℂ) =
      rootProduct (butterworthPoles n omega) :=
    Poly.map_ofRoots (perm_butterworthPoles n omega)
  have hlength : (butterworthPoles n omega).length = n := by
    rw [butterworthPoles, List.length_map, List.length_range]
  have hsign : ((-1) ^ n * (-1) ^ n : ℂ[X]) = 1 := by
    rw [← mul_pow, neg_one_mul, neg_neg, one_pow]
  rw [Polynomial.map_mul, map_comp, Polynomial.map_neg, map_X, hmap, rootProduct_mul_comp_neg,
    hlength, prod_sub_pole_sq omega hn, add_comp, pow_comp, X_comp, C_comp]
  simp only [C_mul, C_pow, C_neg, C_1, Polynomial.map_add, Polynomial.map_mul, Polynomial.map_pow,
    Polynomial.map_neg, Polynomial.map_one, map_C, map_X, Complex.coe_algebraMap]
  rw [mul_add, ← pow_mul, ← mul_assoc, hsign, one_mul, add_comm]

/-- The magnitude on the imaginary axis, where the reflection of a point is its conjugate. -/
theorem normSq_butterworthDenominator (hn : n ≠ 0) (omega w : ℝ) :
    ((butterworthDenominator n omega).evaluateCplx ⟨0, w⟩).normSq =
      omega ^ (2 * n) + w ^ (2 * n) := by
  set d := (butterworthDenominator n omega).toPolynomial with hd
  set z : ℂ := Cplx.toComplex ⟨0, w⟩ with hz
  have hconj : (starRingEnd ℂ) z = -z := by
    apply Complex.ext <;> simp [hz, Cplx.toComplex]
  have hsq : z ^ 2 = -((w : ℂ) ^ 2) := by
    apply Complex.ext <;> simp [hz, Cplx.toComplex, pow_two]
  have hpow : (-1) ^ n * z ^ (2 * n) = (w : ℂ) ^ (2 * n) := by
    rw [pow_mul, hsq, ← mul_pow, neg_one_mul, neg_neg, pow_mul]
  apply Complex.ofReal_injective
  calc (((butterworthDenominator n omega).evaluateCplx ⟨0, w⟩).normSq : ℂ)
      = aeval z d * (starRingEnd ℂ) (aeval z d) := by
        rw [Cplx.normSq_eq, Poly.toComplex_evaluateCplx, Complex.mul_conj]
    _ = aeval z (d * d.comp (-X)) := by
        rw [← aeval_conj, hconj, map_mul, aeval_comp, map_neg, aeval_X]
    _ = omega ^ (2 * n) + (-1) ^ n * z ^ (2 * n) := by
        rw [hd, butterworthDenominator_mul_comp_neg hn]
        simp
    _ = _ := by
        rw [hpow]
        push_cast
        rfl

/-- The constant term is positive, and its square is known. -/
theorem coeff_zero_butterworthDenominator (hn : n ≠ 0) {omega : ℝ} (ho : 0 < omega) :
    (butterworthDenominator n omega).toPolynomial.coeff 0 = omega ^ n := by
  set d := (butterworthDenominator n omega).toPolynomial with hd
  have hstable : StableMonic d n := stableMonic_butterworthDenominator n ho
  have hnonneg : 0 ≤ d.coeff 0 := hstable.positiveMonic.coeff_nonneg 0
  have hsq : d.coeff 0 * d.coeff 0 = omega ^ n * omega ^ n := by
    have h := congrArg (eval 0) (butterworthDenominator_mul_comp_neg hn omega)
    rw [eval_mul, eval_comp, eval_neg, eval_X, neg_zero, ← hd, ← coeff_zero_eq_eval_zero] at h
    rw [h, ← pow_add, ← two_mul]
    simp [hn]
  exact (mul_self_inj hnonneg (by positivity)).1 hsq

/-! ## The magnitudes -/

variable {s : FilterSettings ℝ} {h : TransferFunction ℝ} {hertz : ℝ}

/-- The squared magnitude of a response is the quotient of those of the numerator and the
denominator. -/
theorem normSq_response (h : TransferFunction ℝ) (w : ℝ) :
    (h.response w).normSq =
      (h.numerator.evaluateCplx ⟨0, w⟩).normSq / (h.denominator.evaluateCplx ⟨0, w⟩).normSq := by
  rw [TransferFunction.response, Cplx.normSq_eq, Cplx.toComplex_div, Complex.normSq_div]
  rfl

/-- A quotient by a power of the cutoff. -/
theorem div_add_pow {omega : ℝ} (ho : 0 < omega) (m : Nat) (w c : ℝ) :
    c / (omega ^ m + w ^ m) = c / omega ^ m / (1 + (w / omega) ^ m) := by
  have hpow : omega ^ m ≠ 0 := (pow_pos ho m).ne'
  rw [div_pow, one_add_div hpow, div_div_div_cancel_right₀ hpow]

/-- The constant over the denominator. -/
theorem normSq_response_const (hn : n ≠ 0) {omega : ℝ} (ho : 0 < omega) (w : ℝ) :
    (TransferFunction.response ⟨Poly.const ((butterworthDenominator n omega).coeff 0),
      butterworthDenominator n omega⟩ w).normSq = 1 / (1 + (w / omega) ^ (2 * n)) := by
  set d := butterworthDenominator n omega with hd
  have hconst : d.coeff 0 = omega ^ n := by
    rw [← Poly.coeff_toPolynomial]
    exact coeff_zero_butterworthDenominator hn ho
  have hnum : ((Poly.const (d.coeff 0)).evaluateCplx ⟨0, w⟩).normSq = omega ^ (2 * n) := by
    rw [Cplx.normSq_eq, Poly.toComplex_evaluateCplx, Poly.toPolynomial_const, aeval_C, hconst,
      Complex.coe_algebraMap, Complex.normSq_ofReal, ← pow_add, ← two_mul]
  rw [normSq_response, hnum, hd, normSq_butterworthDenominator hn, div_add_pow ho,
    div_self (pow_pos ho _).ne']

/-- The highest power over the denominator. -/
theorem normSq_response_monomial (hn : n ≠ 0) {omega : ℝ} (ho : 0 < omega) (w : ℝ) :
    (TransferFunction.response ⟨Poly.monomial n, butterworthDenominator n omega⟩ w).normSq =
      (w / omega) ^ (2 * n) / (1 + (w / omega) ^ (2 * n)) := by
  have hsq : Complex.normSq (Cplx.toComplex ⟨0, w⟩) = w ^ 2 := by
    simp [Complex.normSq_apply, Cplx.toComplex, pow_two]
  have hnum : ((Poly.monomial n : Poly ℝ).evaluateCplx ⟨0, w⟩).normSq = w ^ (2 * n) := by
    rw [Cplx.normSq_eq, Poly.toComplex_evaluateCplx, Poly.toPolynomial_monomial, map_pow, aeval_X,
      map_pow, hsq, ← pow_mul]
  rw [normSq_response, hnum, normSq_butterworthDenominator hn, div_add_pow ho, ← div_pow]

/-- The low pass and the high pass of a Butterworth filter at a frequency, whatever the order. -/
theorem butterworth_pass (hb : s.butterworth = true) (hz : 0 < hertz) :
    let d := butterworthDenominator s.order (2.0 * Elementary.pi * hertz)
    s.lowPass hertz = .ok ⟨Poly.const (d.coeff 0), d⟩ ∧
      s.highPass hertz = .ok ⟨Poly.monomial s.order, d⟩ := by
  intro d
  have hd : s.denominatorAt (2.0 * Elementary.pi * hertz) = d := if_pos hb
  have hp : PositiveMonic d.toPolynomial s.order :=
    (stableMonic_butterworthDenominator s.order (angular_pos hz)).positiveMonic
  constructor
  · refine lowPass_eq_ok_iff.2 ⟨hz, ?_⟩
    rw [hd]
    exact TransferFunction.Positive.make_eq (h := ⟨Poly.const (d.coeff 0), d⟩) ⟨hp, by simp⟩
  · refine highPass_eq_ok_iff.2 ⟨hz, ?_⟩
    rw [hd]
    exact TransferFunction.Positive.make_eq (h := ⟨Poly.monomial s.order, d⟩) ⟨hp, by simp⟩

/-- The shape that a pass is checked for leaves the pass as it is. -/
theorem HasShape.transferFunction_pass (hs : s.HasShape) :
    (s.kind = .lowPass → s.transferFunction = s.lowPass s.cutoff) ∧
      (s.kind = .highPass → s.transferFunction = s.highPass s.cutoff) := by
  constructor
  · intro hk
    rw [transferFunction, hk, checkShape_iff.2 hs]
    rfl
  · intro hk
    rw [transferFunction, hk, checkShape_iff.2 hs]
    rfl

/-- **Butterworth filters are maximally flat.** The poles of the denominator are the powers of a
primitive `4 n`-th root of unity with exponents `2 k + n - 1`, for `k` from one to `n`, times the
cutoff. The expansion over them has no imaginary part in any coefficient, its constant term is a
power of the cutoff, and in the product with its reflection only the constant and the highest power
are left. So the squared magnitudes of the low pass and the high pass, which the settings describe
if their order is accepted, depend on the frequency by its `2 n`-th power only. -/
theorem butterworth_is_maximally_flat {omega : ℝ} (hn : 0 < n) (ho : 0 < omega) :
    IsPrimitiveRoot (poleRoot n) (4 * n) ∧
    (butterworthPoles n omega).map Cplx.toComplex =
      (List.range' 1 n).map (fun k => omega * poleRoot n ^ (2 * k + n - 1)) ∧
    (∀ c ∈ Poly.expandedRoots (butterworthPoles n omega), c.im = 0) ∧
    let d := butterworthDenominator n omega
    d = Poly.ofRoots (butterworthPoles n omega) ∧ d.evaluate 0 = omega ^ n ∧
    d.toPolynomial * d.toPolynomial.comp (-X) =
      C (omega ^ (2 * n)) + C ((-1) ^ n) * X ^ (2 * n) ∧
    ∀ s : FilterSettings ℝ, s.butterworth = true → s.order = n →
      ∀ hertz, 2 * Real.pi * hertz = omega →
        ∃ lp hp, s.lowPass hertz = .ok lp ∧ s.highPass hertz = .ok hp ∧
          lp.denominator = d ∧ hp.denominator = d ∧
          (∀ w, let share := (w / omega) ^ (2 * n)
            (lp.response w).normSq = 1 / (1 + share) ∧
              (hp.response w).normSq = share / (1 + share)) ∧
          (n ≤ maxOrder → s.cutoff = hertz →
            (s.kind = .lowPass → s.transferFunction = .ok lp) ∧
              (s.kind = .highPass → s.transferFunction = .ok hp)) := by
  have hne : n ≠ 0 := hn.ne'
  have hreal : ∀ c ∈ Poly.expandedRoots (butterworthPoles n omega), c.im = 0 :=
    fun c hc => Poly.im_eq_zero_of_mem_expandedRoots (perm_butterworthPoles n omega) hc
  refine ⟨isPrimitiveRoot_poleRoot hne, map_toComplex_butterworthPoles omega hne, hreal, ?_⟩
  have hconst : (butterworthDenominator n omega).evaluate 0 = omega ^ n := by
    rw [Poly.evaluate_zero]
    exact coeff_zero_butterworthDenominator hne ho
  refine ⟨rfl, hconst, butterworthDenominator_mul_comp_neg hne omega, ?_⟩
  intro s hb hs hertz hz
  have hpos : 0 < hertz := by
    rw [← hz] at ho
    exact (mul_pos_iff_of_pos_left Real.two_pi_pos).1 ho
  obtain ⟨hlp, hhp⟩ := butterworth_pass hb hpos
  rw [hs, angular_eq, hz] at hlp hhp
  refine ⟨_, _, hlp, hhp, rfl, rfl, fun w => ?_, fun hmax hcutoff => ?_⟩
  · exact ⟨normSq_response_const hne ho w, normSq_response_monomial hne ho w⟩
  · have hshape : s.HasShape := ⟨hs ▸ hne, hs ▸ hmax, fun h => by simp [hb] at h⟩
    rw [← hlp, ← hhp, ← hcutoff]
    exact hshape.transferFunction_pass

/-- A Butterworth high pass of third order with its cutoff at two radians per second, where half of
the power is let through. -/
theorem butterworth_is_maximally_flat_third_order :
    let s : FilterSettings ℝ := ⟨.highPass, 3, 1 / Real.pi, 0, 0, false, true, "", ""⟩
    let d := butterworthDenominator 3 (2 : ℝ)
    d.evaluate 0 = 8 ∧
      d.toPolynomial * d.toPolynomial.comp (-X) = C (2 ^ 6) + C ((-1) ^ 3) * X ^ 6 ∧
      ∃ h, s.transferFunction = .ok h ∧ (h.response 2).normSq = 1 / 2 := by
  intro s d
  have hz : 2 * Real.pi * (1 / Real.pi) = 2 := by
    field_simp
  obtain ⟨-, -, -, -, hzero, hprod, hpass⟩ :=
    butterworth_is_maximally_flat (n := 3) (by decide) (two_pos : 0 < (2 : ℝ))
  obtain ⟨lp, hp, -, -, -, -, hw, hs⟩ := hpass s rfl rfl _ hz
  refine ⟨hzero.trans (by norm_num), hprod, hp, (hs (by decide) rfl).2 rfl, ?_⟩
  rw [(hw 2).2]
  norm_num

end FilterSettings

end SignalCalc
