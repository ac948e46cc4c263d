import Mathlib.Algebra.Polynomial.Monic
import SignalCalc.Proofs.Filter.Construction

/-!
# Filters made of sections

The denominator of a low pass or high pass that is made of damped sections is monic of the order of
the filter and has no negative coefficient (`PositiveMonic`), since its sections are so and products
are again. So such a filter can be made up to order 55, and a band filter up to order 27.

Main statements: `FilterSettings.positiveMonic_sectionDenominator`,
`FilterSettings.OfSections.exists_pass`, `FilterSettings.OfSections.exists_band`.
-/

namespace SignalCalc

open Polynomial

variable {α : Type} [Field α] [LinearOrder α]

/-- A monic polynomial of the given degree without negative coefficients. -/
structure PositiveMonic (p : α[X]) (n : Nat) : Prop where
  monic : p.Monic
  natDegree_eq : p.natDegree = n
  coeff_nonneg : ∀ i, 0 ≤ p.coeff i

variable [IsStrictOrderedRing α]

namespace PositiveMonic

variable {p q : α[X]} {m n : Nat}

/-- The constant one, of degree zero. -/
theorem one : PositiveMonic (1 : α[X]) 0 where
  monic := monic_one
  natDegree_eq := natDegree_one
  coeff_nonneg i := by
    rw [coeff_one]
    split <;> simp

/-- A product of such polynomials is one of them, and the degrees add up. -/
theorem mul (hp : PositiveMonic p m) (hq : PositiveMonic q n) :
    PositiveMonic (p * q) (m + n) where
  monic := hp.monic.mul hq.monic
  natDegree_eq := by rw [hp.monic.natDegree_mul hq.monic, hp.natDegree_eq, hq.natDegree_eq]
  coeff_nonneg i := by
    rw [coeff_mul]
    exact Finset.sum_nonneg fun _ _ => mul_nonneg (hp.coeff_nonneg _) (hq.coeff_nonneg _)

/-- A power of such a polynomial is one of them. -/
theorem pow (hp : PositiveMonic p m) (n : Nat) : PositiveMonic (p ^ n) (n * m) := by
  induction n with
  | zero => simpa using one
  | succ n ih => simpa [pow_succ, Nat.succ_mul] using ih.mul hp

/-- A section of the first order. -/
theorem first {omega : α} (h : 0 ≤ omega) : PositiveMonic (X + C omega) 1 where
  monic := monic_X_add_C omega
  natDegree_eq := natDegree_X_add_C omega
  coeff_nonneg i := by
    rcases i with _ | _ | i <;> simp [coeff_X, coeff_C, h]

/-- A section of the second order. -/
theorem second {c₁ c₀ : α} (h₁ : 0 ≤ c₁) (h₀ : 0 ≤ c₀) :
    PositiveMonic (X ^ 2 + C c₁ * X + C c₀) 2 where
  monic := by monicity!
  natDegree_eq := by compute_degree!
  coeff_nonneg i := by
    rcases i with _ | _ | _ | i <;> simp [coeff_X, coeff_C, coeff_X_pow, h₁, h₀]

omit [IsStrictOrderedRing α] in
/-- The degree that is found for such a polynomial is its own. -/
theorem degree?_eq {p : Poly α} (h : PositiveMonic p.toPolynomial n) : p.degree? = some n := by
  rw [Poly.degree?_of_ne_zero h.monic.ne_zero, ← Poly.natDegree_toPolynomial, h.natDegree_eq]

end PositiveMonic

namespace FilterSettings

omit [IsStrictOrderedRing α] in
/-- The sections of second order, and one of first order if the order is odd. -/
theorem toPolynomial_sectionDenominator (n : Nat) (omega damping : α) :
    (sectionDenominator n omega damping).toPolynomial =
      (X ^ 2 + C (2.0 * damping * omega) * X + C (omega * omega)) ^ (n / 2) *
        (X + C omega) ^ (n % 2) := by
  have hsecond : (Poly.ofList [omega * omega, 2.0 * damping * omega, 1]).toPolynomial =
      X ^ 2 + C (2.0 * damping * omega) * X + C (omega * omega) := by
    simp only [Poly.toPolynomial_ofList, polynomialOf_cons, polynomialOf_nil, C_1]
    ring
  have hfirst : (Poly.ofList [omega, 1]).toPolynomial = X + C omega := by
    simp [add_comm]
  rcases Nat.mod_two_eq_zero_or_one n with hn | hn
  · rw [sectionDenominator, if_neg (by omega), Poly.toPolynomial_pow, hsecond, hn, pow_zero, mul_one]
  · rw [sectionDenominator, if_pos hn, Poly.toPolynomial_mul, Poly.toPolynomial_pow, hsecond, hfirst,
      hn, pow_one]

/-- Sections make a denominator of the order, whatever their number. -/
theorem positiveMonic_sectionDenominator (n : Nat) {omega damping : α} (ho : 0 ≤ omega)
    (hd : 0 ≤ damping) :
    PositiveMonic (sectionDenominator n omega damping).toPolynomial n := by
  have hsecond : PositiveMonic (X ^ 2 + C (2.0 * damping * omega) * X + C (omega * omega)) 2 :=
    PositiveMonic.second (by norm_num; positivity) (by positivity)
  have hm := (hsecond.pow (n / 2)).mul ((PositiveMonic.first ho).pow (n % 2))
  rwa [mul_one, Nat.div_add_mod', ← toPolynomial_sectionDenominator] at hm

end FilterSettings

/-! ## Settings that describe a filter -/

section Accepted

variable {α : Type} [Field α] [LinearOrder α]

/-- A transfer function is made if its denominator is not zero and its numerator is not of greater
degree. -/
theorem TransferFunction.make_eq_ok_iff {numerator denominator : Poly α} {h : TransferFunction α} :
    make numerator denominator = .ok h ↔
      ∃ n, denominator.degree? = some n ∧ numerator.natDegree ≤ n ∧
        h = ⟨numerator, denominator⟩ := by
  rw [make]
  cases hd : denominator.degree? with
  | none => simp
  | some n =>
    by_cases hn : n < numerator.natDegree
    · simp [hn]
    · simp [hn, Nat.le_of_not_lt hn, eq_comm]

namespace FilterSettings

variable [Elementary α] {s : FilterSettings α} {h : TransferFunction α} {hertz : α}

/-- A frequency is accepted if it is positive. -/
theorem angular_eq_ok_iff {role : FrequencyRole} {omega : α} :
    angular role hertz = .ok omega ↔ 0 < hertz ∧ omega = 2.0 * Elementary.pi * hertz := by
  by_cases hp : 0 < hertz <;> simp [angular, isPositive, hp, eq_comm]

omit [Elementary α] in
/-- The check passes for an order from one up to the greatest one, and, unless the filter is a
Butterworth one, for a positive damping. -/
theorem checkShape_eq_ok_iff {u : Unit} :
    s.checkShape = .ok u ↔
      s.order ≠ 0 ∧ s.order ≤ maxOrder ∧ (s.butterworth = false → 0 < s.damping) := by
  rw [checkShape]
  by_cases h0 : s.order = 0
  · simp [h0]
  by_cases hm : maxOrder < s.order
  · simp [h0, hm]
  by_cases hb : s.butterworth = true
  · simp [h0, hm, hb, Nat.le_of_not_lt hm]
  by_cases hd : 0 < s.damping <;> simp [h0, hm, hb, hd, isPositive, Nat.le_of_not_lt hm]

/-- A low pass is designed at a positive frequency. Its numerator is the constant coefficient of its
denominator. -/
theorem lowPass_eq_ok_iff :
    s.lowPass hertz = .ok h ↔ 0 < hertz ∧
      let denominator := s.denominatorAt (2.0 * Elementary.pi * hertz)
      TransferFunction.make (Poly.const (denominator.coeff 0)) denominator = .ok h := by
  simp [lowPass, bind_eq_ok_iff, angular_eq_ok_iff, and_assoc]

/-- A high pass is designed at a positive frequency. Its numerator is the highest power of `s`. -/
theorem highPass_eq_ok_iff :
    s.highPass hertz = .ok h ↔ 0 < hertz ∧
      TransferFunction.make (Poly.monomial s.order)
        (s.denominatorAt (2.0 * Elementary.pi * hertz)) = .ok h := by
  simp [highPass, bind_eq_ok_iff, angular_eq_ok_iff, and_assoc]

/-- A band has edges if its width and its lower edge are positive. -/
theorem bandEdges_eq_ok_iff {edges : α × α} :
    s.bandEdges = .ok edges ↔ 0 < s.width ∧ 0 < s.cutoff - 0.5 * s.width ∧
      edges = (s.cutoff - 0.5 * s.width, s.cutoff + 0.5 * s.width) := by
  rw [bandEdges]
  by_cases hw : 0 < s.width
  · simp [hw, isPositive, bind_eq_ok_iff, angular_eq_ok_iff]
    exact fun _ => eq_comm
  · simp [hw, isPositive]

/-- The filter that passes a band is the product of a high pass and a low pass at its edges. -/
theorem bandPass_eq_ok_iff :
    s.bandPass = .ok h ↔ 0 < s.width ∧ 0 < s.cutoff - 0.5 * s.width ∧
      ∃ hp lp, s.highPass (s.cutoff - 0.5 * s.width) = .ok hp ∧
        s.lowPass (s.cutoff + 0.5 * s.width) = .ok lp ∧
        TransferFunction.make (hp.numerator * lp.numerator) (hp.denominator * lp.denominator) =
          .ok h := by
  simp [bandPass, bind_eq_ok_iff, bandEdges_eq_ok_iff, and_assoc]

/-- The filter that stops a band is the sum of a low pass and a high pass at its edges. -/
theorem bandStop_eq_ok_iff :
    s.bandStop = .ok h ↔ 0 < s.width ∧ 0 < s.cutoff - 0.5 * s.width ∧
      ∃ lp hp, s.lowPass (s.cutoff - 0.5 * s.width) = .ok lp ∧
        s.highPass (s.cutoff + 0.5 * s.width) = .ok hp ∧
        TransferFunction.make
          (lp.numerator * hp.denominator + hp.numerator * lp.denominator)
          (lp.denominator * hp.denominator) = .ok h := by
  simp [bandStop, bind_eq_ok_iff, bandEdges_eq_ok_iff, and_assoc]

/-- The filter of settings is that of the transfer function they describe. -/
theorem ofSettings_eq {rate : α} (hs : s.transferFunction = .ok h) :
    DigitalFilter.ofSettings rate s = DigitalFilter.ofTransferFunction rate h := by
  rw [DigitalFilter.ofSettings, hs, ok_bind]

/-- The settings with another kind and another frequency, as they are for the parts of a band. -/
def part (s : FilterSettings α) (kind : FilterKind) (hertz : α) : FilterSettings α :=
  { s with kind, cutoff := hertz }

/-- Settings that describe a band filter and its parts describe the product of the parts. -/
theorem transferFunction_bandPass {hp lp : TransferFunction α} (hk : s.kind = .bandPass)
    (h₁ : (s.part .highPass (s.cutoff - 0.5 * s.width)).transferFunction = .ok hp)
    (h₂ : (s.part .lowPass (s.cutoff + 0.5 * s.width)).transferFunction = .ok lp)
    (hs : s.transferFunction = .ok h) :
    h = ⟨hp.numerator * lp.numerator, hp.denominator * lp.denominator⟩ := by
  simp only [transferFunction, hk] at hs
  obtain ⟨-, -, hs⟩ := bind_eq_ok_iff.1 hs
  obtain ⟨-, -, h₁⟩ := bind_eq_ok_iff.1 h₁
  obtain ⟨-, -, h₂⟩ := bind_eq_ok_iff.1 h₂
  obtain ⟨-, -, hp', lp', h₁', h₂', hm⟩ := bandPass_eq_ok_iff.1 hs
  cases Except.ok.inj (h₁'.symm.trans h₁)
  cases Except.ok.inj (h₂'.symm.trans h₂)
  obtain ⟨-, -, -, hm⟩ := TransferFunction.make_eq_ok_iff.1 hm
  exact hm

/-- A band stop is the sum of the low pass of its lower edge and the high pass of its upper edge. -/
theorem transferFunction_bandStop {lp hp : TransferFunction α} (hk : s.kind = .bandStop)
    (h₁ : (s.part .lowPass (s.cutoff - 0.5 * s.width)).transferFunction = .ok lp)
    (h₂ : (s.part .highPass (s.cutoff + 0.5 * s.width)).transferFunction = .ok hp)
    (hs : s.transferFunction = .ok h) :
    h = ⟨lp.numerator * hp.denominator + hp.numerator * lp.denominator,
      lp.denominator * hp.denominator⟩ := by
  simp only [transferFunction, hk] at hs
  obtain ⟨-, -, hs⟩ := bind_eq_ok_iff.1 hs
  obtain ⟨-, -, h₁⟩ := bind_eq_ok_iff.1 h₁
  obtain ⟨-, -, h₂⟩ := bind_eq_ok_iff.1 h₂
  obtain ⟨-, -, lp', hp', h₁', h₂', hm⟩ := bandStop_eq_ok_iff.1 hs
  cases Except.ok.inj (h₁'.symm.trans h₁)
  cases Except.ok.inj (h₂'.symm.trans h₂)
  obtain ⟨-, -, -, hm⟩ := TransferFunction.make_eq_ok_iff.1 hm
  exact hm

end FilterSettings

end Accepted

/-! ## Filters of sections can be made -/

section Sections

variable {α : Type} [Field α] [LinearOrder α]

/-- A proper transfer function of the given order with a monic denominator without negative
coefficients. -/
structure TransferFunction.Positive (h : TransferFunction α) (n : Nat) : Prop where
  denominator : PositiveMonic h.denominator.toPolynomial n
  numerator_le : h.numerator.toPolynomial.natDegree ≤ n

variable [IsStrictOrderedRing α]

namespace TransferFunction.Positive

variable {h h₁ h₂ : TransferFunction α} {n m : Nat}

omit [IsStrictOrderedRing α] in
/-- The numerator is not of greater degree than the denominator. -/
theorem natDegree_le (hp : h.Positive n) : h.numerator.natDegree ≤ n :=
  h.numerator.natDegree_toPolynomial.symm.trans_le hp.numerator_le

omit [IsStrictOrderedRing α] in
/-- The transfer function passes the checks. -/
theorem make_eq (hp : h.Positive n) : make h.numerator h.denominator = .ok h :=
  make_eq_ok_iff.2 ⟨n, hp.denominator.degree?_eq, hp.natDegree_le, rfl⟩

/-- Products of such transfer functions are of the kind, and the degrees add up. -/
theorem mul (hp : h₁.Positive n) (hq : h₂.Positive m) :
    (⟨h₁.numerator * h₂.numerator, h₁.denominator * h₂.denominator⟩ :
      TransferFunction α).Positive (n + m) where
  denominator := by
    rw [Poly.toPolynomial_mul]
    exact hp.denominator.mul hq.denominator
  numerator_le := by
    rw [Poly.toPolynomial_mul]
    exact natDegree_mul_le_of_le hp.numerator_le hq.numerator_le

/-- Sums of such transfer functions are of the kind, and the degrees add up. -/
theorem add (hp : h₁.Positive n) (hq : h₂.Positive m) :
    (⟨h₁.numerator * h₂.denominator + h₂.numerator * h₁.denominator,
      h₁.denominator * h₂.denominator⟩ : TransferFunction α).Positive (n + m) where
  denominator := (hp.mul hq).denominator
  numerator_le := by
    rw [Poly.toPolynomial_add, Poly.toPolynomial_mul, Poly.toPolynomial_mul]
    refine natDegree_add_le_of_degree_le
      (natDegree_mul_le_of_le hp.numerator_le hq.denominator.natDegree_eq.le) ?_
    rw [add_comm n]
    exact natDegree_mul_le_of_le hq.numerator_le hp.denominator.natDegree_eq.le

/-- Up to degree 55 such a transfer function can be made discrete at every positive rate. -/
theorem exists_filter [FloorRing α] [Elementary α] [ExactElementary α] (hp : h.Positive n)
    (hn : n ≤ 55) {rate : α} (hr : 0 < rate) :
    ∃ f, DigitalFilter.ofTransferFunction rate h = .ok f :=
  DigitalFilter.exists_ofTransferFunction hp.denominator.degree?_eq hp.natDegree_le hr hn
    fun i => (hp.denominator.coeff_nonneg i).trans_eq (h.denominator.coeff_toPolynomial i)

end TransferFunction.Positive

namespace FilterSettings

variable [Elementary α] {s : FilterSettings α}

/-- Settings of a filter that is made of sections, whatever its kind and its frequencies. -/
structure OfSections (s : FilterSettings α) : Prop where
  butterworth : s.butterworth = false
  order_pos : 0 < s.order
  order_le : s.order ≤ maxOrder
  damping : 0 < s.damping
  pi : 0 < (Elementary.pi : α)

namespace OfSections

omit [IsStrictOrderedRing α] in
/-- The settings pass the check. -/
theorem checkShape (hs : s.OfSections) : s.checkShape = .ok () :=
  checkShape_eq_ok_iff.2 ⟨hs.order_pos.ne', hs.order_le, fun _ => hs.damping⟩

variable {hertz : α}

/-- The denominator has the order as its degree, and no negative coefficients. -/
theorem denominatorAt (hs : s.OfSections) (hz : 0 < hertz) :
    PositiveMonic (s.denominatorAt (2.0 * Elementary.pi * hertz)).toPolynomial s.order := by
  have hpi := hs.pi
  have ho : 0 ≤ 2.0 * Elementary.pi * hertz := by
    norm_num
    positivity
  rw [FilterSettings.denominatorAt, hs.butterworth]
  exact positiveMonic_sectionDenominator s.order ho hs.damping.le

/-- There is a low pass at every positive frequency. -/
theorem lowPass (hs : s.OfSections) (hz : 0 < hertz) :
    ∃ h, s.lowPass hertz = .ok h ∧ h.Positive s.order := by
  have hp : TransferFunction.Positive ⟨Poly.const ((s.denominatorAt
      (2.0 * Elementary.pi * hertz)).coeff 0), _⟩ s.order := ⟨hs.denominatorAt hz, by simp⟩
  exact ⟨_, lowPass_eq_ok_iff.2 ⟨hz, hp.make_eq⟩, hp⟩

/-- There is a high pass at every positive frequency. -/
theorem highPass (hs : s.OfSections) (hz : 0 < hertz) :
    ∃ h, s.highPass hertz = .ok h ∧ h.Positive s.order := by
  have hp : TransferFunction.Positive ⟨Poly.monomial s.order, _⟩ s.order :=
    ⟨hs.denominatorAt hz, by simp⟩
  exact ⟨_, highPass_eq_ok_iff.2 ⟨hz, hp.make_eq⟩, hp⟩

/-- A low pass or a high pass with a positive frequency can be designed. -/
theorem transferFunction_pass (hs : s.OfSections) (hk : s.kind = .lowPass ∨ s.kind = .highPass)
    (hc : 0 < s.cutoff) : ∃ h, s.transferFunction = .ok h ∧ h.Positive s.order := by
  rw [transferFunction]
  rcases hk with hk | hk
  · simpa only [hk, hs.checkShape, ok_bind] using hs.lowPass hc
  · simpa only [hk, hs.checkShape, ok_bind] using hs.highPass hc

/-- A band pass or a band stop with a positive width and a positive lower edge can be designed, with
twice the degree. -/
theorem transferFunction_band (hs : s.OfSections) (hk : s.kind = .bandPass ∨ s.kind = .bandStop)
    (hw : 0 < s.width) (hl : 0 < s.cutoff - 0.5 * s.width) :
    ∃ h, s.transferFunction = .ok h ∧ h.Positive (s.order + s.order) := by
  have hu : 0 < s.cutoff + 0.5 * s.width := by linarith
  rw [transferFunction]
  rcases hk with hk | hk
  · obtain ⟨hp, hhp, hhp'⟩ := hs.highPass hl
    obtain ⟨lp, hlp, hlp'⟩ := hs.lowPass hu
    have hm := hhp'.mul hlp'
    exact ⟨_, by simpa only [hk, hs.checkShape, ok_bind] using
      bandPass_eq_ok_iff.2 ⟨hw, hl, hp, lp, hhp, hlp, hm.make_eq⟩, hm⟩
  · obtain ⟨lp, hlp, hlp'⟩ := hs.lowPass hl
    obtain ⟨hp, hhp, hhp'⟩ := hs.highPass hu
    have hm := hlp'.add hhp'
    exact ⟨_, by simpa only [hk, hs.checkShape, ok_bind] using
      bandStop_eq_ok_iff.2 ⟨hw, hl, lp, hp, hlp, hhp, hm.make_eq⟩, hm⟩

variable [FloorRing α] [ExactElementary α] {rate : α}

/-- A low pass or high pass that is made of sections can be made up to order 55. -/
theorem exists_pass (hs : s.OfSections) (hk : s.kind = .lowPass ∨ s.kind = .highPass)
    (hn : s.order ≤ 55) (hc : 0 < s.cutoff) (hr : 0 < rate) :
    ∃ f, DigitalFilter.ofSettings rate s = .ok f := by
  obtain ⟨h, hh, hp⟩ := hs.transferFunction_pass hk hc
  rw [ofSettings_eq hh]
  exact hp.exists_filter hn hr

/-- A band filter that is made of sections can be made up to order 27. -/
theorem exists_band (hs : s.OfSections) (hk : s.kind = .bandPass ∨ s.kind = .bandStop)
    (hn : s.order ≤ 27) (hw : 0 < s.width) (hl : 0 < s.cutoff - 0.5 * s.width) (hr : 0 < rate) :
    ∃ f, DigitalFilter.ofSettings rate s = .ok f := by
  obtain ⟨h, hh, hp⟩ := hs.transferFunction_band hk hw hl
  rw [ofSettings_eq hh]
  exact hp.exists_filter (by omega) hr

end OfSections

end FilterSettings

end Sections

end SignalCalc
