import Mathlib.Algebra.BigOperators.Fin
import Mathlib.Algebra.Polynomial.Homogenize
import Mathlib.Algebra.Polynomial.Reverse
import Mathlib.Analysis.CStarAlgebra.Classes
import Mathlib.Tactic.FieldSimp
import SignalCalc.Filter.Digital
import SignalCalc.Proofs.Exact
import SignalCalc.Proofs.Outcome
import SignalCalc.Proofs.Poly.Ring

/-!
# The bilinear transform

In the delay `w = 1 / z` the fraction `(z - 1) / (z + 1)` is `(1 - w) / (1 + w)`. So a polynomial in
`s`, made homogeneous in a numerator and a denominator of `s`, becomes a polynomial in the delay
(`discretized`); its coefficients are what the transform lists (`polynomialOf_substitute`). As
making homogeneous does, it takes products to products, and its values are those of the polynomial
in `s` times a power of `1 + w`.

Main statements: `discretized_mul`, `polynomialOf_substitute`, `bilinear_is_substitution`.
-/

namespace SignalCalc

open Polynomial

/-! ## Polynomials in the delay -/

section Discretized

variable {α : Type} [CommRing α]

/-- What a polynomial in `s` of degree at most `n` becomes, multiplied by `(1 + w) ^ n`: the
polynomial in the delay `w`, with `k (1 - w) / (1 + w)` in the place of `s`. -/
noncomputable def discretized (k : α) (n : Nat) (p : α[X]) : α[X] :=
  MvPolynomial.aeval ![C k * (1 - X), 1 + X] (p.homogenize n)

/-- The substitution is made in each term of a sum. -/
theorem discretized_add (k : α) (n : Nat) (p q : α[X]) :
    discretized k n (p + q) = discretized k n p + discretized k n q := by
  simp only [discretized, homogenize_add, map_add]

/-- A constant factor stays as it is. -/
theorem discretized_C_mul (k : α) (n : Nat) (c : α) (p : α[X]) :
    discretized k n (C c * p) = C c * discretized k n p := by
  simp only [discretized, homogenize_C_mul, map_mul, MvPolynomial.aeval_C, algebraMap_eq]

/-- The substitution is made in each factor of a product, and their orders add up. -/
theorem discretized_mul (k : α) {m n : Nat} {p q : α[X]} (hp : p.natDegree ≤ m)
    (hq : q.natDegree ≤ n) :
    discretized k (m + n) (p * q) = discretized k m p * discretized k n q := by
  simp only [discretized, homogenize_mul p q hp hq, map_mul]

/-- What becomes of a power of `s`. -/
theorem discretized_X_pow (k : α) {m n : Nat} (h : m ≤ n) :
    discretized k n (X ^ m) = C (k ^ m) * ((1 - X) ^ m * (1 + X) ^ (n - m)) := by
  rw [discretized, homogenize_X_pow h, map_mul, map_pow, map_pow, MvPolynomial.aeval_X,
    MvPolynomial.aeval_X]
  simp only [Matrix.cons_val_zero, Matrix.cons_val_one, C_pow, mul_pow, mul_assoc]

variable {K : Type*} [CommRing K] [Algebra α K]

/-- The value at a delay, term by term. -/
theorem aeval_discretized_eq_sum (k : α) (n : Nat) (p : α[X]) (w : K) :
    aeval w (discretized k n p) = ∑ i ∈ Finset.range (n + 1),
      algebraMap α K (p.coeff i) * ((algebraMap α K k * (1 - w)) ^ i * (1 + w) ^ (n - i)) := by
  rw [discretized, MvPolynomial.comp_aeval_apply, homogenize, map_sum,
    Finset.Nat.sum_antidiagonal_eq_sum_range_succ_mk]
  refine Finset.sum_congr rfl fun i _ => ?_
  rw [MvPolynomial.aeval_monomial, Finsupp.prod_fintype _ _ fun _ => pow_zero _, Fin.prod_univ_two]
  simp

end Discretized

section Field

variable {α : Type} [Field α] {K : Type*} [Field K] [Algebra α K]

/-- Where the denominator of the fraction does not vanish the value is that of the polynomial in
`s`, multiplied by the power that clears the fractions. -/
theorem aeval_discretized (k : α) {n : Nat} {p : α[X]} (hp : p.natDegree ≤ n) {w : K}
    (hw : 1 + w ≠ 0) :
    aeval w (discretized k n p) =
      aeval (algebraMap α K k * (1 - w) / (1 + w)) p * (1 + w) ^ n := by
  rw [aeval_discretized_eq_sum, aeval_eq_sum_range' (Nat.lt_succ_of_le hp), Finset.sum_mul]
  refine Finset.sum_congr rfl fun i hi => ?_
  have hi : n = i + (n - i) := by
    have := Finset.mem_range.1 hi
    omega
  rw [Algebra.smul_def, mul_assoc, div_pow]
  congr 1
  conv_rhs => rw [hi, pow_add]
  field_simp

/-- Where it vanishes, only the coefficient of the highest power is left. -/
theorem aeval_discretized_neg_one (k : α) (n : Nat) (p : α[X]) :
    aeval (-1 : K) (discretized k n p) =
      (2 * algebraMap α K k) ^ n * algebraMap α K (p.coeff n) := by
  rw [aeval_discretized_eq_sum, Finset.sum_range_succ, Finset.sum_eq_zero, zero_add, Nat.sub_self]
  · ring
  · intro i hi
    have hi : n - i ≠ 0 := Nat.sub_ne_zero_of_lt (Finset.mem_range.1 hi)
    rw [add_neg_cancel, zero_pow hi, mul_zero, mul_zero]

end Field

/-! ## The coefficients that the transform lists -/

section Descending

variable {α : Type} [CommRing α]

/-- The coefficients of a power are turned around with those of its base. -/
theorem reflect_pow {p : α[X]} (hp : p.natDegree ≤ 1) (m : Nat) :
    reflect m (p ^ m) = reflect 1 p ^ m := by
  induction m with
  | zero => simp
  | succ m ih =>
    rw [pow_succ, reflect_mul _ _ ((natDegree_pow_le_of_le m hp).trans_eq (mul_one m)) hp, ih,
      pow_succ]

namespace Poly

/-- The list of the coefficients has one more entry than the order. -/
theorem length_descending [BEq α] (p : Poly α) (n : Nat) : (p.descending n).length = n + 1 := by
  simp [descending]

/-- Listing the coefficients by descending powers reverses the polynomial. -/
theorem polynomialOf_descending [BEq α] {p : Poly α} {n : Nat}
    (h : p.toPolynomial.natDegree ≤ n) :
    polynomialOf (p.descending n) = reflect n p.toPolynomial := by
  ext j
  rw [coeff_polynomialOf, coeff_reflect, descending, List.getD_eq_getElem?_getD]
  rcases Nat.lt_or_ge n j with hj | hj
  · rw [revAt_eq_self_of_lt hj, coeff_eq_zero_of_natDegree_lt (h.trans_lt hj),
      List.getElem?_eq_none (by simpa using hj)]
    rfl
  · rw [revAt_le hj, coeff_toPolynomial, List.getElem?_map, List.getElem?_range (by omega)]
    rfl

variable [BEq α] [LawfulBEq α]

/-- The list that stands for a power of `s`, as a polynomial in `z`. -/
theorem toPolynomial_substitutedPower (n m : Nat) :
    (substitutedPower n m : Poly α).toPolynomial = (X - 1) ^ m * (X + 1) ^ (n - m) := by
  simp only [substitutedPower, toPolynomial_mul, toPolynomial_pow, toPolynomial_ofList,
    polynomialOf_cons, polynomialOf_nil, C_neg, C_1, mul_zero, add_zero, mul_one]
  ring

/-- A power of the fraction, cleared and reversed, is a power of the fraction in the delay. -/
theorem substitutedPower_spec {n m : Nat} (h : m ≤ n) :
    (substitutedPower n m : Poly α).toPolynomial.natDegree ≤ n ∧
      reflect n (substitutedPower n m : Poly α).toPolynomial =
        (1 - X) ^ m * (1 + X) ^ (n - m) := by
  have hn : n = m + (n - m) := by omega
  have hs : (X - 1 : α[X]).natDegree ≤ 1 := by compute_degree
  have ha : (X + 1 : α[X]).natDegree ≤ 1 := by compute_degree
  have hsm : ((X - 1 : α[X]) ^ m).natDegree ≤ m :=
    (natDegree_pow_le_of_le m hs).trans_eq (mul_one m)
  have ham : ((X + 1 : α[X]) ^ (n - m)).natDegree ≤ n - m :=
    (natDegree_pow_le_of_le _ ha).trans_eq (mul_one _)
  rw [toPolynomial_substitutedPower]
  refine ⟨(natDegree_mul_le_of_le hsm ham).trans_eq hn.symm, ?_⟩
  conv_lhs => rw [hn, Nat.add_sub_cancel_left]
  rw [reflect_mul _ _ hsm ham, reflect_pow hs, reflect_pow ha, reflect_sub, reflect_add,
    reflect_one_X, reflect_one, pow_one]

end Poly

end Descending

section Substitute

variable {α : Type} [Field α] [LinearOrder α]

namespace Poly

/-- The terms that are added up for coefficients from a power on are those of the polynomial that
the coefficients stand for, as long as no power is above the order. -/
theorem reflect_foldl_substituted (k : α) {n : Nat} (cs : List α) {m : Nat} (sum : Poly α)
    (hm : m + cs.length ≤ n + 1) (hs : sum.toPolynomial.natDegree ≤ n) :
    let total := (cs.zipIdx m).foldl
      (fun sum (c, power) => sum + (substitutedPower n power).scale (c * powInt k power)) sum
    total.toPolynomial.natDegree ≤ n ∧
      reflect n total.toPolynomial =
        reflect n sum.toPolynomial + discretized k n (X ^ m * polynomialOf cs) := by
  induction cs generalizing m sum with
  | nil => simp [hs, discretized]
  | cons c cs ih =>
    rw [List.length_cons] at hm
    obtain ⟨hd, hr⟩ := substitutedPower_spec (α := α) (show m ≤ n by omega)
    have hpoly : (sum + (substitutedPower n m).scale (c * powInt k m)).toPolynomial =
        sum.toPolynomial + C (c * k ^ m) * (substitutedPower n m).toPolynomial := by
      rw [toPolynomial_add, toPolynomial_scale, powInt_natCast, mul_comm (C _)]
    obtain ⟨hi, ht⟩ := ih (m := m + 1)
      (sum + (substitutedPower n m).scale (c * powInt k m)) (by omega) (by
        rw [hpoly]
        exact (natDegree_add_le_of_degree_le hs ((natDegree_C_mul_le _ _).trans hd)))
    refine ⟨hi, ht.trans ?_⟩
    have hX : X ^ m * polynomialOf (c :: cs) = C c * X ^ m + X ^ (m + 1) * polynomialOf cs := by
      rw [polynomialOf_cons]
      ring
    rw [hpoly, reflect_add, reflect_C_mul, hr, hX, discretized_add, discretized_C_mul,
      discretized_X_pow k (by omega), C_mul]
    ring

/-- The transform lists the coefficients of the polynomial in the delay. -/
theorem polynomialOf_substitute (k : α) {p : Poly α} {n : Nat} (hp : p.natDegree ≤ n) :
    polynomialOf ((p.substitute n k).descending n) = discretized k n p.toPolynomial := by
  have hl := p.length_coeffs_le
  obtain ⟨hd, hr⟩ := reflect_foldl_substituted k (n := n) p.coeffs (m := 0) 0 (by omega) (by simp)
  rw [pow_zero, one_mul, toPolynomial_zero, reflect_zero, zero_add] at hr
  exact (polynomialOf_descending hd).trans hr

/-- The coefficients of a section of second order. -/
theorem substitute_second_order (k : α) {p : Poly α} {c₀ c₁ c₂ : α}
    (hp : p.toPolynomial = C c₀ * X ^ 0 + (C c₁ * X ^ 1 + C c₂ * X ^ 2)) :
    (p.substitute 2 k).descending 2 =
      [c₀ + c₁ * k + c₂ * k ^ 2, 2 * (c₀ - c₂ * k ^ 2), c₀ - c₁ * k + c₂ * k ^ 2] := by
  have hd : p.natDegree ≤ 2 := by
    rw [← natDegree_toPolynomial, hp]
    compute_degree
  refine eq_of_polynomialOf_eq (length_descending _ 2) ?_
  rw [polynomialOf_substitute k hd, hp, discretized_add, discretized_add, discretized_C_mul,
    discretized_C_mul, discretized_C_mul, discretized_X_pow k (by omega),
    discretized_X_pow k (by omega), discretized_X_pow k (by omega)]
  simp only [polynomialOf_cons, polynomialOf_nil, C_add, C_sub, C_mul, C_pow, C_ofNat]
  ring

end Poly

end Substitute

/-! ## Values at points of the plane -/

section Values

variable {α : Type} [Field α] {K : Type*} [Field K] [Algebra α K]

/-- The value at `z` of coefficients by ascending powers of `1 / z`. -/
def delaySum (cs : List α) (z : K) : K :=
  ∑ j : Fin cs.length, algebraMap α K cs[j] / z ^ (j : Nat)

/-- The point `s` of continuous time that is put in the place of `z`. -/
def continuousPoint (rate : α) (z : K) : K := 2 * algebraMap α K rate * ((z - 1) / (z + 1))

/-- The value of a polynomial at a point of a larger field. -/
noncomputable def Poly.valueAt [BEq α] (p : Poly α) (s : K) : K := aeval s p.toPolynomial

/-- The discrete frequency zero is the continuous one. -/
theorem continuousPoint_one (rate : α) : continuousPoint rate (1 : K) = 0 := by
  simp [continuousPoint]

/-- The value at zero in the larger field is that in the smaller one. -/
theorem Poly.valueAt_zero [BEq α] (p : Poly α) : p.valueAt (0 : α) = p.evaluate 0 := by
  rw [valueAt, coe_aeval_eq_eval, eval_toPolynomial]

/-- The value of coefficients by powers of the delay is that of their polynomial at `1 / z`. -/
theorem delaySum_eq (cs : List α) (z : K) : delaySum cs z = aeval z⁻¹ (polynomialOf cs) := by
  induction cs with
  | nil => simp [delaySum]
  | cons c cs ih =>
    have hs : delaySum (c :: cs) z = algebraMap α K c + z⁻¹ * delaySum cs z := by
      simp only [delaySum, List.length_cons, Fin.sum_univ_succ, Finset.mul_sum]
      congr 1
      · simp
      · refine Finset.sum_congr rfl fun j _ => ?_
        simp only [Fin.getElem_fin, Fin.val_succ, List.getElem_cons_succ, pow_succ]
        ring
    rw [hs, ih, polynomialOf_cons, map_add, map_mul, aeval_C, aeval_X]

/-- At one the value is the sum of the coefficients. -/
theorem delaySum_one (cs : List α) : delaySum cs (1 : α) = total cs := by
  simp [delaySum, total_eq_sum]

/-- At a point where the transform is defined, the coefficients of the delay have the value of the
polynomial in `s` at the point that is put in its place. -/
theorem aeval_discretized_inv (rate : α) {n : Nat} {p : α[X]} (hp : p.natDegree ≤ n) {z : K}
    (hz : z ≠ 0) (hz' : z ≠ -1) :
    aeval z⁻¹ (discretized (2 * rate) n p) =
      (z + 1) ^ n / z ^ n * aeval (continuousPoint rate z) p := by
  have hadd : z + 1 ≠ 0 := fun h => hz' (eq_neg_of_add_eq_zero_left h)
  have hw : 1 + z⁻¹ = (z + 1) / z := by
    field_simp
  have hs : algebraMap α K (2 * rate) * (1 - z⁻¹) / ((z + 1) / z) = continuousPoint rate z := by
    rw [continuousPoint, map_mul, map_ofNat]
    field_simp
  rw [aeval_discretized _ hp (hw ▸ div_ne_zero hadd hz), hw, hs, div_pow, mul_comm]

end Values

section Listed

variable {α : Type} [Field α] [LinearOrder α] {K : Type*} [Field K] [Algebra α K]

namespace Poly

variable {p : Poly α} {n : Nat}

/-- The power of `z + 1` that goes with a coefficient is what its power leaves of the order. -/
theorem le_of_mem_zipIdx (hp : p.natDegree ≤ n) {x : α × Nat} (hx : x ∈ p.coeffs.zipIdx) :
    x.2 ≤ n := by
  have hl := p.length_coeffs_le
  have := List.snd_lt_of_mem_zipIdx hx
  omega

/-- The list of a polynomial has the value of the polynomial at the point of continuous time, with
the fractions cleared. -/
theorem delaySum_substitute (rate : α) (hp : p.natDegree ≤ n) {z : K} (hz : z ≠ 0)
    (hz' : z ≠ -1) :
    delaySum ((p.substitute n (2 * rate)).descending n) z =
      (z + 1) ^ n / z ^ n * p.valueAt (continuousPoint rate z) := by
  rw [delaySum_eq, polynomialOf_substitute _ hp, valueAt,
    aeval_discretized_inv rate (p.natDegree_toPolynomial.trans_le hp) hz hz']

/-- At minus one, which is no point of continuous time, only the highest power counts. -/
theorem delaySum_substitute_neg_one (rate : α) (hp : p.natDegree ≤ n) :
    delaySum ((p.substitute n (2 * rate)).descending n) (-1 : K) =
      (4 * algebraMap α K rate) ^ n * algebraMap α K (p.coeff n) := by
  have h4 : 2 * algebraMap α K (2 * rate) = 4 * algebraMap α K rate := by
    rw [map_mul, map_ofNat]
    ring
  rw [delaySum_eq, polynomialOf_substitute _ hp, inv_neg_one, aeval_discretized_neg_one, h4,
    coeff_toPolynomial]

end Poly

end Listed

/-! ## Filters of transfer functions -/

section Filters

variable {α : Type} [Field α] [LinearOrder α]

/-- A transfer function is made discrete if it is proper and the rate is positive. -/
theorem TransferFunction.bilinear_eq_ok_iff [IsStrictOrderedRing α] {h : TransferFunction α}
    {rate : α} {ba : List α × List α} :
    h.bilinear rate = .ok ba ↔ ∃ n, h.denominator.degree? = some n ∧ h.numerator.natDegree ≤ n ∧
      0 < rate ∧ ba = ((h.numerator.substitute n (2 * rate)).descending n,
        (h.denominator.substitute n (2 * rate)).descending n) := by
  have htwo : (2.0 : α) = 2 := by norm_num
  rw [bilinear, isFinite_eq_true, Bool.true_and, htwo]
  by_cases hr : 0 < rate
  · rw [decide_eq_true hr]
    cases hd : h.denominator.degree? with
    | none => simp
    | some n =>
      by_cases hn : n < h.numerator.natDegree
      · simp [hn]
      · simp [hn, hr, Nat.le_of_not_lt hn, eq_comm]
  · simp [hr]

variable [Elementary α]

namespace DigitalFilter

variable [IsStrictOrderedRing α]

omit [IsStrictOrderedRing α] in
/-- The greatest magnitude is not negative. -/
theorem largest_nonneg (cs : List α) : 0 ≤ largest cs := by
  have hf (m : α) : m ≤ cs.foldl
      (fun m c => if m ≤ Elementary.abs c then Elementary.abs c else m) m := by
    induction cs generalizing m with
    | nil => exact le_rfl
    | cons c cs ih =>
      refine le_trans ?_ (ih _)
      beta_reduce
      split
      · assumption
      · exact le_rfl
  exact hf 0

variable [FloorRing α] [ExactElementary α]

/-- The leading coefficient that the others are divided by is not zero. -/
theorem leading_ne_zero {a₀ : α} {a : List α}
    (h : ¬Elementary.abs a₀ ≤ roundingError * largest a) : a₀ ≠ 0 := by
  rintro rfl
  rw [ExactElementary.abs_eq, abs_zero, not_le] at h
  have hr : (0 : α) ≤ roundingError := by
    unfold roundingError
    positivity
  exact absurd h (not_lt.2 (mul_nonneg hr (largest_nonneg a)))

/-- The denominator of a filter starts with one. -/
theorem head?_of_ofCoefficients {b a : List α} {f : DigitalFilter α}
    (h : ofCoefficients b a = .ok f) : f.a.head? = some 1 := by
  obtain ⟨a₀, feedback, -, rfl, -, hg, rfl⟩ := ofCoefficients_eq_ok_iff.1 h
  rw [List.map_cons, List.head?_cons, div_self (leading_ne_zero hg)]

/-- The denominator of the filter of a transfer function starts with one. -/
theorem head?_of_ofTransferFunction {rate : α} {h : TransferFunction α} {f : DigitalFilter α}
    (hf : ofTransferFunction rate h = .ok f) : f.a.head? = some 1 := by
  obtain ⟨_, -, hf⟩ := bind_eq_ok_iff.1 hf
  exact head?_of_ofCoefficients hf

/-- The filter of a transfer function, as polynomials in the delay: those of the numerator and of
the denominator, divided by the same number. -/
theorem polynomialOf_ofTransferFunction {rate : α} {h : TransferFunction α} {f : DigitalFilter α}
    (hf : ofTransferFunction rate h = .ok f) :
    ∃ n c, h.denominator.degree? = some n ∧ h.numerator.natDegree ≤ n ∧ c ≠ 0 ∧
      polynomialOf f.b = discretized (2 * rate) n h.numerator.toPolynomial * C c ∧
      polynomialOf f.a = discretized (2 * rate) n h.denominator.toPolynomial * C c := by
  obtain ⟨⟨b, a⟩, hba, hf⟩ := bind_eq_ok_iff.1 hf
  obtain ⟨n, hd, hn, -, hba⟩ := TransferFunction.bilinear_eq_ok_iff.1 hba
  obtain ⟨rfl, rfl⟩ := Prod.mk.inj hba
  obtain ⟨a₀, feedback, -, ha, -, hg, rfl⟩ := ofCoefficients_eq_ok_iff.1 hf
  have h0 : a₀ ≠ 0 := leading_ne_zero hg
  refine ⟨n, a₀⁻¹, hd, hn, inv_ne_zero h0, ?_, ?_⟩
  · rw [polynomialOf_map_div, Poly.polynomialOf_substitute _ hn]
  · rw [polynomialOf_map_div, Poly.polynomialOf_substitute _ (Poly.natDegree_eq_of_degree? hd).le]

/-- The values of a filter are those of its transfer function, multiplied by one number. -/
theorem delaySum_ofTransferFunction {K : Type*} [Field K] [Algebra α K] {rate : α}
    {h : TransferFunction α} {f : DigitalFilter α} (hf : ofTransferFunction rate h = .ok f) {z : K}
    (hz : z ≠ 0) (hz' : z ≠ -1) :
    ∃ c ≠ 0, delaySum f.b z = c * h.numerator.valueAt (continuousPoint rate z) ∧
      delaySum f.a z = c * h.denominator.valueAt (continuousPoint rate z) := by
  obtain ⟨n, c, hd, hn, hc, hb, ha⟩ := polynomialOf_ofTransferFunction hf
  have hadd : z + 1 ≠ 0 := fun h => hz' (eq_neg_of_add_eq_zero_left h)
  have hp (p : Poly α) (hp : p.natDegree ≤ n) :
      aeval z⁻¹ (discretized (2 * rate) n p.toPolynomial * C c) =
        (z + 1) ^ n / z ^ n * algebraMap α K c * p.valueAt (continuousPoint rate z) := by
    rw [map_mul, aeval_C, aeval_discretized_inv rate (p.natDegree_toPolynomial.trans_le hp) hz hz',
      mul_right_comm]
    rfl
  refine ⟨(z + 1) ^ n / z ^ n * algebraMap α K c, ?_, ?_, ?_⟩
  · exact mul_ne_zero (div_ne_zero (pow_ne_zero n hadd) (pow_ne_zero n hz)) (by simpa using hc)
  · rw [delaySum_eq, hb, hp _ hn]
  · rw [delaySum_eq, ha, hp _ (Poly.natDegree_eq_of_degree? hd).le]

/-- A filter whose transfer function has a value at zero settles with that value. -/
theorem steadyGain_of_ofTransferFunction {rate : α} {h : TransferFunction α} {f : DigitalFilter α}
    (hf : ofTransferFunction rate h = .ok f) (h0 : h.denominator.evaluate 0 ≠ 0) :
    total f.a ≠ 0 ∧ f.steadyGain = h.numerator.evaluate 0 / h.denominator.evaluate 0 := by
  obtain ⟨c, hc, hb, ha⟩ := delaySum_ofTransferFunction hf (K := α) one_ne_zero (by norm_num)
  simp only [delaySum_one, continuousPoint_one, Poly.valueAt_zero] at hb ha
  rw [steadyGain, hb, ha, mul_div_mul_left _ _ hc]
  exact ⟨mul_ne_zero hc h0, rfl⟩

end DigitalFilter

open DigitalFilter

variable [IsStrictOrderedRing α] [FloorRing α] [ExactElementary α]

/-- **The bilinear transform is a substitution.** A proper transfer function of order `n`, at a
positive rate, gives two lists of `n + 1` coefficients; no power of a coefficient is above the
order. At every point `z` but zero and minus one their values are those of the numerator and the
denominator at the point of continuous time, with the fractions cleared, and at minus one those of
the highest powers. A filter that can be made of the lists starts with one in its denominator, has
the transfer function as the ratio of its values, and settles with the ratio of the constant
coefficients. -/
theorem bilinear_is_substitution (h : TransferFunction α) (rate : α) {K : Type*} [Field K]
    [Algebra α K] :
    (∀ n, h.denominator.degree? = some n → h.numerator.natDegree ≤ n → 0 < rate →
      (∀ x ∈ h.numerator.coeffs.zipIdx ++ h.denominator.coeffs.zipIdx, x.2 ≤ n) ∧
      ∃ b a, h.bilinear rate = .ok (b, a) ∧ b.length = n + 1 ∧ a.length = n + 1 ∧
        (∀ z : K, z ≠ 0 → z ≠ -1 →
          let scale := (z + 1) ^ n / z ^ n
          delaySum b z = scale * h.numerator.valueAt (continuousPoint rate z) ∧
          delaySum a z = scale * h.denominator.valueAt (continuousPoint rate z)) ∧
        delaySum b (-1 : K) =
          (4 * algebraMap α K rate) ^ n * algebraMap α K (h.numerator.coeff n) ∧
        delaySum a (-1 : K) =
          (4 * algebraMap α K rate) ^ n * algebraMap α K (h.denominator.coeff n)) ∧
    ∀ f, ofTransferFunction rate h = .ok f →
      f.a.head? = some 1 ∧
      (∀ z : K, z ≠ 0 → z ≠ -1 →
        (delaySum f.a z = 0 ↔ h.denominator.valueAt (continuousPoint rate z) = 0) ∧
        delaySum f.b z / delaySum f.a z =
          h.numerator.valueAt (continuousPoint rate z) /
            h.denominator.valueAt (continuousPoint rate z)) ∧
      (h.denominator.evaluate 0 ≠ 0 → total f.a ≠ 0 ∧
        f.steadyGain = h.numerator.evaluate 0 / h.denominator.evaluate 0) := by
  refine ⟨fun n hd hn hr => ?_, fun f hf => ?_⟩
  · have hd' := (Poly.natDegree_eq_of_degree? hd).le
    refine ⟨fun x hx => ?_, _, _, TransferFunction.bilinear_eq_ok_iff.2 ⟨n, hd, hn, hr, rfl⟩,
      Poly.length_descending _ n, Poly.length_descending _ n,
      fun z hz hz' => ⟨Poly.delaySum_substitute rate hn hz hz',
        Poly.delaySum_substitute rate hd' hz hz'⟩,
      Poly.delaySum_substitute_neg_one rate hn, Poly.delaySum_substitute_neg_one rate hd'⟩
    rcases List.mem_append.1 hx with hx | hx
    · exact Poly.le_of_mem_zipIdx hn hx
    · exact Poly.le_of_mem_zipIdx hd' hx
  · refine ⟨head?_of_ofTransferFunction hf, fun z hz hz' => ?_,
      steadyGain_of_ofTransferFunction hf⟩
    obtain ⟨c, hc, hb, ha⟩ := delaySum_ofTransferFunction hf hz hz'
    exact ⟨by rw [ha, mul_eq_zero, or_iff_right hc], by rw [hb, ha, mul_div_mul_left _ _ hc]⟩

/-- The transfer function `1 / (s^2 + 3s + 2)` at half a sample per second. The numerator is padded
to the order, and the last coefficient of the denominator is zero. At the imaginary unit the point
of continuous time is the imaginary unit, too. -/
theorem bilinear_is_substitution_second_order :
    let h : TransferFunction ℝ := ⟨Poly.ofList [1], Poly.ofList [2, 3, 1]⟩
    h.denominator.degree? = some 2 ∧ h.numerator.natDegree ≤ 2 ∧ (0 : ℝ) < 1 / 2 ∧
      h.bilinear (1 / 2) = .ok ([1, 2, 1], [6, 2, 0]) ∧
      delaySum ([6, 2, 0] : List ℝ) (-1 : ℂ) = 4 ∧
      ∃ f, ofTransferFunction (1 / 2) h = .ok f ∧ f.a.head? = some 1 ∧
        delaySum f.b Complex.I / delaySum f.a Complex.I = 1 / (1 + 3 * Complex.I) ∧
        f.steadyGain = 1 / 2 := by
  intro h
  have hn : h.numerator.toPolynomial = C 1 * X ^ 0 + (C 0 * X ^ 1 + C 0 * X ^ 2) := by
    simp [h]
  have hd : h.denominator.toPolynomial = C 2 * X ^ 0 + (C 3 * X ^ 1 + C 1 * X ^ 2) := by
    simp only [h, Poly.toPolynomial_ofList, polynomialOf_cons, polynomialOf_nil]
    ring
  have hd? : h.denominator.degree? = some 2 := by
    simp [h, Poly.degree?, dropTrailingZeros]
  have hnd : h.numerator.natDegree ≤ 2 := by
    rw [← Poly.natDegree_toPolynomial, hn]
    compute_degree
  have hb : (h.numerator.substitute 2 (2 * (1 / 2))).descending 2 = [1, 2, 1] := by
    rw [Poly.substitute_second_order _ hn]
    norm_num
  have ha : (h.denominator.substitute 2 (2 * (1 / 2))).descending 2 = [6, 2, 0] := by
    rw [Poly.substitute_second_order _ hd]
    norm_num
  have hba : h.bilinear (1 / 2) = .ok ([1, 2, 1], [6, 2, 0]) :=
    TransferFunction.bilinear_eq_ok_iff.2 ⟨2, hd?, hnd, by norm_num, by rw [hb, ha]⟩
  obtain ⟨f, hf⟩ : ∃ f : DigitalFilter ℝ, ofTransferFunction (1 / 2) h = .ok f := by
    rw [ofTransferFunction, hba, ok_bind]
    refine ⟨_, ofCoefficients_eq_ok_iff.2
      ⟨6, [2, 0], List.cons_ne_nil _ _, rfl, isFinite_eq_true _, ?_, rfl⟩⟩
    norm_num [largest, roundingError, ExactElementary.abs_eq]
  obtain ⟨hproper, hfilter⟩ := bilinear_is_substitution (K := ℂ) h (1 / 2)
  obtain ⟨-, b, a, hba', -, -, -, -, hlast⟩ := hproper 2 hd? hnd (by norm_num)
  obtain ⟨rfl, rfl⟩ := Prod.mk.inj (Except.ok.inj (hba'.symm.trans hba))
  have hc : h.denominator.coeff 2 = 1 := by
    simp [h, Poly.coeff, dropTrailingZeros]
  obtain ⟨h1, hratio, hgain⟩ := hfilter f hf
  have hpoint : continuousPoint (1 / 2 : ℝ) Complex.I = Complex.I := by
    have hI : Complex.I + 1 ≠ 0 := fun h => by simpa using congrArg Complex.re h
    have hk : 2 * algebraMap ℝ ℂ (1 / 2) = 1 := by norm_num
    rw [continuousPoint, hk, one_mul, div_eq_iff hI]
    linear_combination -Complex.I_sq
  have hnI : h.numerator.valueAt Complex.I = 1 := by
    rw [Poly.valueAt, hn]
    simp
  have hdI : h.denominator.valueAt Complex.I = 1 + 3 * Complex.I := by
    rw [Poly.valueAt, hd]
    simp only [map_add, map_mul, map_pow, aeval_C, aeval_X, Complex.I_sq, Complex.coe_algebraMap]
    norm_num
    ring
  have hn0 : h.numerator.evaluate 0 = 1 := by
    rw [← Poly.eval_toPolynomial, hn]
    simp
  have hd0 : h.denominator.evaluate 0 = 2 := by
    rw [← Poly.eval_toPolynomial, hd]
    simp
  refine ⟨hd?, hnd, by norm_num, hba, ?_, f, hf, h1, ?_, ?_⟩
  · rw [hlast, hc]
    norm_num
  · have hI : Complex.I ≠ -1 := fun h => by simpa using congrArg Complex.im h
    rw [(hratio _ Complex.I_ne_zero hI).2, hpoint, hnI, hdI]
  · rw [(hgain (by rw [hd0]; norm_num)).2, hn0, hd0]

end Filters

end SignalCalc
