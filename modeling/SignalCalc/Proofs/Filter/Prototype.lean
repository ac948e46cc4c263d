import SignalCalc.Proofs.Filter.Butterworth

/-!
# Prototypes of the classical filters

What the settings of a classical filter describe is a *prototype*: a transfer function with a stable
denominator of a known degree, with a known value at zero and a known limit at infinity
(`TransferFunction.Prototype`). A low pass and a high pass are prototypes, whatever their poles are
made of, and a band filter is the product or the sum of two. In a product the values are multiplied,
in a sum they are added; the constant terms and the highest coefficients follow from that.

Main statements: `FilterSettings.transferFunction_of_isAccepted`, `prototype_shape_and_gains`.
-/

namespace SignalCalc

open Polynomial

/-- A transfer function with a stable denominator of the given degree, the given value at zero and
the given limit at infinity. -/
structure TransferFunction.Prototype (h : TransferFunction ℝ) (n : Nat) (low high : ℝ) : Prop where
  denominator : StableMonic h.denominator.toPolynomial n
  numerator_le : h.numerator.toPolynomial.natDegree ≤ n
  low_eq : h.numerator.toPolynomial.coeff 0 = low * h.denominator.toPolynomial.coeff 0
  high_eq : h.numerator.toPolynomial.coeff n = high

namespace TransferFunction.Prototype

variable {h h₁ h₂ : TransferFunction ℝ} {n m : Nat} {low high low₁ high₁ low₂ high₂ : ℝ}

/-- A prototype has no negative coefficients in its denominator, which is stable. -/
theorem positive (hp : h.Prototype n low high) : h.Positive n :=
  ⟨hp.denominator.positiveMonic, hp.numerator_le⟩

/-- A product of prototypes has the products of their gains. -/
theorem mul (hp : h₁.Prototype n low₁ high₁) (hq : h₂.Prototype m low₂ high₂) :
    (⟨h₁.numerator * h₂.numerator, h₁.denominator * h₂.denominator⟩ :
      TransferFunction ℝ).Prototype (n + m) (low₁ * low₂) (high₁ * high₂) where
  denominator := by
    rw [Poly.toPolynomial_mul]
    exact hp.denominator.mul hq.denominator
  numerator_le := (hp.positive.mul hq.positive).numerator_le
  low_eq := by
    rw [Poly.toPolynomial_mul, Poly.toPolynomial_mul, mul_coeff_zero, mul_coeff_zero, hp.low_eq,
      hq.low_eq]
    ring
  high_eq := by
    rw [Poly.toPolynomial_mul, coeff_mul_add_eq_of_natDegree_le hp.numerator_le hq.numerator_le,
      hp.high_eq, hq.high_eq]

/-- A sum of prototypes has the sums of their gains. -/
theorem add (hp : h₁.Prototype n low₁ high₁) (hq : h₂.Prototype m low₂ high₂) :
    (⟨h₁.numerator * h₂.denominator + h₂.numerator * h₁.denominator,
      h₁.denominator * h₂.denominator⟩ :
      TransferFunction ℝ).Prototype (n + m) (low₁ + low₂) (high₁ + high₂) where
  denominator := (hp.mul hq).denominator
  numerator_le := (hp.positive.add hq.positive).numerator_le
  low_eq := by
    simp only [Poly.toPolynomial_add, Poly.toPolynomial_mul, coeff_add, mul_coeff_zero, hp.low_eq,
      hq.low_eq]
    ring
  high_eq := by
    rw [Poly.toPolynomial_add, Poly.toPolynomial_mul, Poly.toPolynomial_mul, coeff_add,
      coeff_mul_add_eq_of_natDegree_le hp.numerator_le hq.denominator.natDegree_eq.le, add_comm n,
      coeff_mul_add_eq_of_natDegree_le hq.numerator_le hp.denominator.natDegree_eq.le, hp.high_eq,
      hq.high_eq, ← hp.denominator.natDegree_eq, ← hq.denominator.natDegree_eq,
      hp.denominator.monic.coeff_natDegree, hq.denominator.monic.coeff_natDegree, mul_one, mul_one]

end TransferFunction.Prototype

/-! ## Gains and degrees -/

namespace FilterKind

/-- What a classical filter leaves of a constant. -/
def gainAtZero : FilterKind → ℝ
  | lowPass | bandStop | notch => 1
  | _ => 0

/-- What a classical filter leaves of ever faster oscillations. -/
def gainAtInfinity : FilterKind → ℝ
  | highPass | bandStop | notch => 1
  | _ => 0

end FilterKind

namespace FilterSettings

variable {s : FilterSettings ℝ} {h : TransferFunction ℝ} {hertz : ℝ}

/-- The degree of the denominator of a classical filter. -/
def prototypeDegree (s : FilterSettings ℝ) : Nat :=
  match s.kind with
  | .lowPass | .highPass => s.order
  | .bandPass | .bandStop => 2 * s.order
  | _ => 2

/-- An order and a damping that a low pass or a high pass can have. -/
structure HasShape (s : FilterSettings ℝ) : Prop where
  order_ne : s.order ≠ 0
  order_le : s.order ≤ maxOrder
  damping_pos : s.butterworth = false → 0 < s.damping

/-- The check passes for orders and dampings that a filter can have, and for no others. -/
theorem checkShape_iff : s.checkShape = .ok () ↔ s.HasShape :=
  checkShape_eq_ok_iff.trans ⟨fun ⟨h₁, h₂, h₃⟩ => ⟨h₁, h₂, h₃⟩, fun ⟨h₁, h₂, h₃⟩ => ⟨h₁, h₂, h₃⟩⟩

/-- Settings that describe a classical filter. -/
def IsAccepted (s : FilterSettings ℝ) : Prop :=
  match s.kind with
  | .lowPass | .highPass => s.HasShape ∧ 0 < s.cutoff
  | .bandPass | .bandStop => s.HasShape ∧ 0 < s.width ∧ 0 < s.cutoff - 0.5 * s.width
  | .notch => 0 < s.cutoff ∧ 0 < s.width
  | .custom => False

/-- The angular frequency over the reals. -/
theorem angular_eq (hertz : ℝ) : 2.0 * Elementary.pi * hertz = 2 * Real.pi * hertz := by
  have hpi : (Elementary.pi : ℝ) = Real.pi := rfl
  rw [hpi]
  norm_num

/-- The angular frequency of a positive frequency is positive. -/
theorem angular_pos (hz : 0 < hertz) : 0 < 2.0 * Elementary.pi * hertz := by
  rw [angular_eq]
  positivity

/-- Sections with a positive frequency and a positive damping are stable. -/
theorem stableMonic_sectionDenominator (n : Nat) {omega damping : ℝ} (ho : 0 < omega)
    (hd : 0 < damping) : StableMonic (sectionDenominator n omega damping).toPolynomial n := by
  have hsecond : StableMonic (X ^ 2 + C (2.0 * damping * omega) * X + C (omega * omega)) 2 :=
    StableMonic.second (by norm_num; positivity) (by positivity)
  have hm := (hsecond.pow (n / 2)).mul ((StableMonic.first ho).pow (n % 2))
  rwa [mul_one, Nat.div_add_mod', ← toPolynomial_sectionDenominator] at hm

namespace HasShape

/-- The denominator is stable, of sections and of Butterworth filters alike. -/
theorem stableMonic_denominatorAt (hs : s.HasShape) (hz : 0 < hertz) :
    StableMonic (s.denominatorAt (2.0 * Elementary.pi * hertz)).toPolynomial s.order := by
  rw [denominatorAt]
  cases hb : s.butterworth with
  | true => exact stableMonic_butterworthDenominator s.order (angular_pos hz)
  | false => exact stableMonic_sectionDenominator s.order (angular_pos hz) (hs.damping_pos hb)

/-- A low pass has gain one at zero and none at infinity. -/
theorem lowPass (hs : s.HasShape) (hz : 0 < hertz) :
    ∃ h, s.lowPass hertz = .ok h ∧ h.Prototype s.order 1 0 := by
  set denominator := s.denominatorAt (2.0 * Elementary.pi * hertz)
  have hp : TransferFunction.Prototype ⟨Poly.const (denominator.coeff 0), denominator⟩
      s.order 1 0 :=
    ⟨hs.stableMonic_denominatorAt hz, by simp, by simp [Poly.coeff_toPolynomial],
      by simp [coeff_C_of_ne_zero hs.order_ne]⟩
  exact ⟨_, lowPass_eq_ok_iff.2 ⟨hz, hp.positive.make_eq⟩, hp⟩

/-- A high pass has no gain at zero and gain one at infinity. -/
theorem highPass (hs : s.HasShape) (hz : 0 < hertz) :
    ∃ h, s.highPass hertz = .ok h ∧ h.Prototype s.order 0 1 := by
  have hp : TransferFunction.Prototype ⟨Poly.monomial s.order,
      s.denominatorAt (2.0 * Elementary.pi * hertz)⟩ s.order 0 1 :=
    ⟨hs.stableMonic_denominatorAt hz, by simp, by simp [coeff_X_pow, hs.order_ne.symm], by simp⟩
  exact ⟨_, highPass_eq_ok_iff.2 ⟨hz, hp.positive.make_eq⟩, hp⟩

/-- A band pass has no gain at zero and none at infinity. -/
theorem bandPass (hs : s.HasShape) (hw : 0 < s.width) (hl : 0 < s.cutoff - 0.5 * s.width) :
    ∃ h, s.bandPass = .ok h ∧ h.Prototype (2 * s.order) 0 0 := by
  obtain ⟨hp, hhp, hp₁⟩ := hs.highPass hl
  obtain ⟨lp, hlp, hp₂⟩ := hs.lowPass (show 0 < s.cutoff + 0.5 * s.width by linarith)
  have hm := hp₁.mul hp₂
  rw [zero_mul, one_mul, ← two_mul] at hm
  exact ⟨_, bandPass_eq_ok_iff.2 ⟨hw, hl, hp, lp, hhp, hlp, hm.positive.make_eq⟩, hm⟩

/-- A band stop has gain one at zero and at infinity. -/
theorem bandStop (hs : s.HasShape) (hw : 0 < s.width) (hl : 0 < s.cutoff - 0.5 * s.width) :
    ∃ h, s.bandStop = .ok h ∧ h.Prototype (2 * s.order) 1 1 := by
  obtain ⟨lp, hlp, hp₁⟩ := hs.lowPass hl
  obtain ⟨hp, hhp, hp₂⟩ := hs.highPass (show 0 < s.cutoff + 0.5 * s.width by linarith)
  have hm := hp₁.add hp₂
  rw [zero_add, add_zero, ← two_mul] at hm
  exact ⟨_, bandStop_eq_ok_iff.2 ⟨hw, hl, lp, hp, hlp, hhp, hm.positive.make_eq⟩, hm⟩

end HasShape

/-- The polynomials of a notch. -/
theorem toPolynomial_notch (c₀ c₁ : ℝ) :
    (Poly.ofList [c₀, c₁, 1]).toPolynomial = X ^ 2 + C c₁ * X + C c₀ := by
  simp only [Poly.toPolynomial_ofList, polynomialOf_cons, polynomialOf_nil, C_1]
  ring

/-- A notch is designed at a positive frequency with a positive width. -/
theorem notch_eq_ok_iff :
    s.notch = .ok h ↔ 0 < s.cutoff ∧ 0 < s.width ∧
      let omega := 2.0 * Elementary.pi * s.cutoff
      TransferFunction.make (Poly.ofList [omega * omega, 0, 1])
        (Poly.ofList [omega * omega, 2.0 * Elementary.pi * s.width, 1]) = .ok h := by
  simp [notch, bind_eq_ok_iff, angular_eq_ok_iff, and_assoc]

/-- A notch has gain one at zero and at infinity. -/
theorem prototype_notch (hc : 0 < s.cutoff) (hw : 0 < s.width) :
    ∃ h, s.notch = .ok h ∧ h.Prototype 2 1 1 := by
  set omega := 2.0 * Elementary.pi * s.cutoff with homega
  have ho : 0 < omega := angular_pos hc
  have hd := StableMonic.second (angular_pos hw) (mul_pos ho ho)
  have hp : TransferFunction.Prototype ⟨Poly.ofList [omega * omega, 0, 1],
      Poly.ofList [omega * omega, 2.0 * Elementary.pi * s.width, 1]⟩ 2 1 1 := by
    refine ⟨?_, ?_, ?_, ?_⟩
    · rw [toPolynomial_notch]
      exact hd
    · rw [toPolynomial_notch]
      compute_degree
    · rw [toPolynomial_notch, toPolynomial_notch]
      simp
    · rw [toPolynomial_notch]
      simp
  exact ⟨_, notch_eq_ok_iff.2 ⟨hc, hw, hp.positive.make_eq⟩, hp⟩

/-- Settings that are accepted describe a prototype. -/
theorem transferFunction_of_isAccepted (hs : s.IsAccepted) :
    ∃ h, s.transferFunction = .ok h ∧
      h.Prototype s.prototypeDegree s.kind.gainAtZero s.kind.gainAtInfinity := by
  rw [IsAccepted] at hs
  rw [transferFunction, prototypeDegree]
  cases hk : s.kind with
  | lowPass =>
    rw [hk] at hs
    rw [checkShape_iff.2 hs.1]
    exact hs.1.lowPass hs.2
  | highPass =>
    rw [hk] at hs
    rw [checkShape_iff.2 hs.1]
    exact hs.1.highPass hs.2
  | bandPass =>
    rw [hk] at hs
    rw [checkShape_iff.2 hs.1]
    exact hs.1.bandPass hs.2.1 hs.2.2
  | bandStop =>
    rw [hk] at hs
    rw [checkShape_iff.2 hs.1]
    exact hs.1.bandStop hs.2.1 hs.2.2
  | notch =>
    rw [hk] at hs
    exact prototype_notch hs.1 hs.2
  | custom =>
    rw [hk] at hs
    exact hs.elim

/-- Settings of a classical filter are accepted if they describe anything. -/
theorem isAccepted_of_transferFunction (hk : s.kind ≠ .custom) (hs : s.transferFunction = .ok h) :
    s.IsAccepted := by
  rw [IsAccepted]
  rw [transferFunction] at hs
  cases hkind : s.kind with
  | lowPass =>
    rw [hkind] at hs
    obtain ⟨_, hshape, hs⟩ := bind_eq_ok_iff.1 hs
    exact ⟨checkShape_iff.1 hshape, (lowPass_eq_ok_iff.1 hs).1⟩
  | highPass =>
    rw [hkind] at hs
    obtain ⟨_, hshape, hs⟩ := bind_eq_ok_iff.1 hs
    exact ⟨checkShape_iff.1 hshape, (highPass_eq_ok_iff.1 hs).1⟩
  | bandPass =>
    rw [hkind] at hs
    obtain ⟨_, hshape, hs⟩ := bind_eq_ok_iff.1 hs
    obtain ⟨hw, hl, -⟩ := bandPass_eq_ok_iff.1 hs
    exact ⟨checkShape_iff.1 hshape, hw, hl⟩
  | bandStop =>
    rw [hkind] at hs
    obtain ⟨_, hshape, hs⟩ := bind_eq_ok_iff.1 hs
    obtain ⟨hw, hl, -⟩ := bandStop_eq_ok_iff.1 hs
    exact ⟨checkShape_iff.1 hshape, hw, hl⟩
  | notch =>
    rw [hkind] at hs
    obtain ⟨hc, hw, -⟩ := notch_eq_ok_iff.1 hs
    exact ⟨hc, hw⟩
  | custom => exact absurd hkind hk

/-- What settings of a classical filter describe is a prototype. -/
theorem prototype_of_transferFunction (hk : s.kind ≠ .custom) (hs : s.transferFunction = .ok h) :
    h.Prototype s.prototypeDegree s.kind.gainAtZero s.kind.gainAtInfinity := by
  obtain ⟨h', hs', hp⟩ := transferFunction_of_isAccepted (isAccepted_of_transferFunction hk hs)
  cases hs.symm.trans hs'
  exact hp

/-- Up to degree 55 there is a filter at every positive rate. -/
theorem exists_ofSettings (hk : s.kind ≠ .custom) (hs : s.transferFunction = .ok h)
    (hn : s.prototypeDegree ≤ 55) {rate : ℝ} (hr : 0 < rate) :
    ∃ f, DigitalFilter.ofSettings rate s = .ok f := by
  rw [ofSettings_eq hs]
  exact (prototype_of_transferFunction hk hs).positive.exists_filter hn hr

/-- The degree of an accepted filter is one that polynomials may have. -/
theorem prototypeDegree_le (hs : s.IsAccepted) : s.prototypeDegree ≤ Poly.maxDegree := by
  have hmax : 2 * maxOrder = Poly.maxDegree := rfl
  rw [IsAccepted] at hs
  rw [prototypeDegree]
  cases hk : s.kind with
  | lowPass | highPass =>
    rw [hk] at hs
    have hle : s.order ≤ maxOrder := hs.1.order_le
    show s.order ≤ Poly.maxDegree
    omega
  | bandPass | bandStop =>
    rw [hk] at hs
    exact Nat.mul_le_mul_left 2 hs.1.order_le
  | notch | custom => exact Nat.le_of_ble_eq_true rfl

end FilterSettings

/-! ## Shape and gains -/

/-- The value at zero is the constant coefficient. -/
theorem Poly.evaluate_zero (p : Poly ℝ) : p.evaluate 0 = p.toPolynomial.coeff 0 := by
  rw [← Poly.eval_toPolynomial, coeff_zero_eq_eval_zero]

namespace TransferFunction.Prototype

variable {h : TransferFunction ℝ} {n : Nat} {low high : ℝ}

/-- The degree of the denominator is that of the prototype. -/
theorem degree?_eq (hp : h.Prototype n low high) : h.denominator.degree? = some n :=
  hp.denominator.positiveMonic.degree?_eq

/-- The denominator is monic. -/
theorem coeff_eq_one (hp : h.Prototype n low high) : h.denominator.coeff n = 1 := by
  rw [← Poly.coeff_toPolynomial, ← hp.denominator.natDegree_eq]
  exact hp.denominator.monic.coeff_natDegree

/-- The constant coefficient of the denominator is not zero, since zero is no stable root. -/
theorem evaluate_zero_ne (hp : h.Prototype n low high) : h.denominator.evaluate 0 ≠ 0 := by
  rw [Poly.evaluate_zero]
  exact hp.denominator.coeff_zero_ne

/-- The value at zero. -/
theorem evaluate_zero_div (hp : h.Prototype n low high) :
    h.numerator.evaluate 0 / h.denominator.evaluate 0 = low := by
  have h0 := hp.denominator.coeff_zero_ne
  rw [Poly.evaluate_zero, Poly.evaluate_zero, hp.low_eq, mul_div_cancel_right₀ _ h0]

/-- The denominator has no zero on the imaginary axis. -/
theorem evaluateCplx_ne (hp : h.Prototype n low high) (omega : ℝ) :
    h.denominator.evaluateCplx ⟨0, omega⟩ ≠ 0 := by
  intro hz
  have hz := congrArg Cplx.toComplex hz
  rw [Poly.toComplex_evaluateCplx] at hz
  exact lt_irrefl _ (hp.denominator.re_neg _ hz)

end TransferFunction.Prototype

namespace FilterSettings

variable {s : FilterSettings ℝ} {h : TransferFunction ℝ}

/-- At its middle a notch lets nothing through. -/
theorem response_notch (hk : s.kind = .notch) (hs : s.transferFunction = .ok h) :
    h.response (2 * Real.pi * s.cutoff) = 0 := by
  simp only [transferFunction, hk] at hs
  obtain ⟨-, -, hs⟩ := notch_eq_ok_iff.1 hs
  obtain ⟨-, -, -, rfl⟩ := TransferFunction.make_eq_ok_iff.1 hs
  apply Cplx.toComplex_injective
  rw [TransferFunction.response, Cplx.toComplex_div, Poly.toComplex_evaluateCplx,
    toPolynomial_notch, angular_eq]
  set omega := 2 * Real.pi * s.cutoff
  have hz : aeval (Cplx.toComplex ⟨0, omega⟩) (X ^ 2 + C 0 * X + C (omega * omega)) = 0 := by
    apply Complex.ext <;> simp [Cplx.toComplex, pow_two]
  rw [hz, zero_div]
  rfl

end FilterSettings

open DigitalFilter

/-- **Shape and gains of the prototypes.** The transfer function that the settings of a classical
filter describe has a monic denominator of the degree of the filter, which expressions can build,
and with a constant term; the numerator is of no higher degree. A low pass, a band stop and a notch
leave a constant as it is, a high pass and a band pass take it away; of ever faster oscillations a
high pass, a band stop and a notch leave all and the others nothing. A notch has its zero at its
middle. A filter made of the transfer function settles with the same gain. -/
theorem prototype_shape_and_gains {s : FilterSettings ℝ} {h : TransferFunction ℝ}
    (hk : s.kind ≠ .custom) (hs : s.transferFunction = .ok h) :
    let n := s.prototypeDegree
    h.denominator.degree? = some n ∧ h.denominator.coeff n = 1 ∧ n ≤ Poly.maxDegree ∧
      h.denominator.coeff 0 ≠ 0 ∧ h.numerator.natDegree ≤ n ∧
      h.denominator.evaluate 0 ≠ 0 ∧
      h.numerator.evaluate 0 / h.denominator.evaluate 0 = s.kind.gainAtZero ∧
      h.numerator.coeff n / h.denominator.coeff n = s.kind.gainAtInfinity ∧
      (s.kind = .notch →
        let omega := 2 * Real.pi * s.cutoff
        h.denominator.evaluateCplx ⟨0, omega⟩ ≠ 0 ∧ h.response omega = 0) ∧
      ∀ rate f, ofSettings rate s = .ok f →
        total f.a ≠ 0 ∧ f.steadyGain = s.kind.gainAtZero := by
  intro n
  have hp := FilterSettings.prototype_of_transferFunction hk hs
  refine ⟨hp.degree?_eq, hp.coeff_eq_one,
    FilterSettings.prototypeDegree_le (FilterSettings.isAccepted_of_transferFunction hk hs), ?_,
    hp.positive.natDegree_le, hp.evaluate_zero_ne, hp.evaluate_zero_div, ?_,
    fun hn => ⟨hp.evaluateCplx_ne _, FilterSettings.response_notch hn hs⟩, fun rate f hf => ?_⟩
  · rw [← Poly.coeff_toPolynomial]
    exact hp.denominator.coeff_zero_ne
  · rw [hp.coeff_eq_one, div_one, ← Poly.coeff_toPolynomial]
    exact hp.high_eq
  · rw [FilterSettings.ofSettings_eq hs] at hf
    have hgain := steadyGain_of_ofTransferFunction hf hp.evaluate_zero_ne
    rwa [hp.evaluate_zero_div] at hgain

/-- A Butterworth band stop of third order from one to three hertz, with a filter at ten samples per
second; and a notch at five hertz. -/
theorem prototype_shape_and_gains_stop :
    let s : FilterSettings ℝ := ⟨.bandStop, 3, 2, 0, 2, false, true, "", ""⟩
    let t : FilterSettings ℝ := ⟨.notch, 0, 5, 0, 1, false, false, "", ""⟩
    (∃ h, s.transferFunction = .ok h ∧ h.denominator.degree? = some 6 ∧
      h.denominator.coeff 6 = 1 ∧ h.numerator.evaluate 0 / h.denominator.evaluate 0 = 1 ∧
      h.numerator.coeff 6 / h.denominator.coeff 6 = 1 ∧
      ∃ f, ofSettings 10 s = .ok f ∧ f.steadyGain = 1) ∧
    ∃ h, t.transferFunction = .ok h ∧ h.response (2 * Real.pi * 5) = 0 := by
  intro s t
  have hs : s.IsAccepted :=
    ⟨⟨by decide, by decide, by simp [s]⟩, by norm_num [s], by norm_num [s]⟩
  have ht : t.IsAccepted := ⟨by norm_num [t], by norm_num [t]⟩
  obtain ⟨h, hh, -⟩ := FilterSettings.transferFunction_of_isAccepted hs
  obtain ⟨g, hg, -⟩ := FilterSettings.transferFunction_of_isAccepted ht
  have hr : (0 : ℝ) < 10 := by norm_num
  obtain ⟨f, hf⟩ := FilterSettings.exists_ofSettings (s := s) (by decide) hh (by decide) hr
  obtain ⟨hd, h1, -, -, -, -, hlow, hhigh, -, hgain⟩ :=
    prototype_shape_and_gains (s := s) (by decide) hh
  obtain ⟨-, -, -, -, -, -, -, -, hnotch, -⟩ := prototype_shape_and_gains (s := t) (by decide) hg
  exact ⟨⟨h, hh, hd, h1, hlow, hhigh, f, hf, (hgain 10 f hf).2⟩, g, hg, (hnotch rfl).2⟩

end SignalCalc
