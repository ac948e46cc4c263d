import Mathlib.Algebra.Order.BigOperators.Ring.Finset
import Mathlib.Algebra.Polynomial.Coeff
import SignalCalc.Proofs.Filter.Bilinear

/-!
# Filters that can be made

A discrete filter is refused if the leading coefficient of its denominator is no more than the
rounding error of the greatest one. If the denominator in `s` has no negative coefficient, all of
its discrete coefficients are bounded by binomial coefficients times the leading one: the powers of
`1 - w` have the coefficients of those of `1 + w`, but for signs (`Majorized`). So up to order 55 no
such filter is refused.

Main statements: `DigitalFilter.exists_ofCoefficients_iff`,
`DigitalFilter.exists_ofTransferFunction`.
-/

namespace SignalCalc

open Polynomial

variable {α : Type} [Field α] [LinearOrder α]

/-- The coefficients of the first polynomial are bounded in magnitude by those of the second. -/
def Majorized (p q : α[X]) : Prop := ∀ m, |p.coeff m| ≤ q.coeff m

variable [IsStrictOrderedRing α]

namespace Majorized

/-- The constant one bounds itself. -/
theorem one : Majorized (1 : α[X]) 1 := by
  intro m
  rw [coeff_one]
  split <;> simp

/-- Bounds of coefficients are multiplied. -/
theorem mul {p q p' q' : α[X]} (h : Majorized p q) (h' : Majorized p' q') :
    Majorized (p * p') (q * q') := by
  intro m
  rw [coeff_mul, coeff_mul]
  refine (Finset.abs_sum_le_sum_abs _ _).trans (Finset.sum_le_sum fun x _ => ?_)
  rw [abs_mul]
  exact mul_le_mul (h _) (h' _) (abs_nonneg _) ((abs_nonneg _).trans (h _))

/-- Bounds of coefficients are raised to powers. -/
theorem pow {p q : α[X]} (h : Majorized p q) (n : Nat) : Majorized (p ^ n) (q ^ n) := by
  induction n with
  | zero => exact pow_zero p ▸ pow_zero q ▸ one
  | succ n ih => exact pow_succ p n ▸ pow_succ q n ▸ ih.mul h

/-- The two powers that the transform multiplies are bounded by one power of `1 + w`. -/
theorem substituted (i j : Nat) :
    Majorized ((1 - X) ^ i * (1 + X) ^ j : α[X]) ((1 + X) ^ (i + j)) := by
  have hs : Majorized (1 - X : α[X]) (1 + X) := by
    intro m
    rcases m with _ | _ | m <;> simp [coeff_X, coeff_one]
  have ha : Majorized (1 + X : α[X]) (1 + X) := by
    intro m
    rcases m with _ | _ | m <;> simp [coeff_X, coeff_one]
  rw [pow_add]
  exact (hs.pow i).mul (ha.pow j)

end Majorized

/-- A polynomial without negative coefficients is positive at positive points. -/
theorem eval_pos_of_coeff_nonneg {p : α[X]} (hp : p ≠ 0) (hc : ∀ i, 0 ≤ p.coeff i) {k : α}
    (hk : 0 < k) : 0 < p.eval k := by
  rw [eval_eq_sum_range]
  refine Finset.sum_pos' (fun i _ => mul_nonneg (hc i) (pow_nonneg hk.le i))
    ⟨p.natDegree, Finset.self_mem_range_succ _, mul_pos ?_ (pow_pos hk _)⟩
  exact (hc _).lt_of_ne' (leadingCoeff_ne_zero.2 hp)

/-- The first coefficient is the value at the factor of the fraction. -/
theorem coeff_zero_discretized (k : α) {n : Nat} {p : α[X]} (hp : p.natDegree ≤ n) :
    (discretized k n p).coeff 0 = p.eval k := by
  have h := aeval_discretized k hp (w := (0 : α)) (by simp)
  simpa [coeff_zero_eq_eval_zero] using h

omit [LinearOrder α] [IsStrictOrderedRing α] in
/-- The polynomial in the delay, term by term. -/
theorem discretized_eq_sum (k : α) (n : Nat) (p : α[X]) :
    discretized k n p = ∑ i ∈ Finset.range (n + 1),
      C (p.coeff i * k ^ i) * ((1 - X) ^ i * (1 + X) ^ (n - i)) := by
  rw [← aeval_X_left_apply (discretized k n p), aeval_discretized_eq_sum]
  refine Finset.sum_congr rfl fun i _ => ?_
  simp only [algebraMap_eq, mul_pow, C_mul, C_pow]
  ring

/-- Without negative coefficients no discrete one is greater than a binomial coefficient times the
first. -/
theorem abs_coeff_discretized_le {k : α} (hk : 0 ≤ k) {n : Nat} {p : α[X]}
    (hp : p.natDegree ≤ n) (hc : ∀ i, 0 ≤ p.coeff i) (m : Nat) :
    |(discretized k n p).coeff m| ≤ n.choose m * p.eval k := by
  rw [discretized_eq_sum, finsetSum_coeff, eval_eq_sum_range' (Nat.lt_succ_of_le hp),
    Finset.mul_sum]
  refine (Finset.abs_sum_le_sum_abs _ _).trans (Finset.sum_le_sum fun i hi => ?_)
  have hi : i + (n - i) = n := by
    have := Finset.mem_range.1 hi
    omega
  have hck : 0 ≤ p.coeff i * k ^ i := mul_nonneg (hc i) (pow_nonneg hk i)
  have hm := Majorized.substituted (α := α) i (n - i) m
  rw [hi, coeff_one_add_X_pow] at hm
  rw [coeff_C_mul, abs_mul, abs_of_nonneg hck, mul_comm]
  exact mul_le_mul_of_nonneg_right hm hck

namespace Poly

variable {p : Poly α} {k : α} {n : Nat}

omit [IsStrictOrderedRing α] in
/-- Coefficients that are not negative are not negative as those of the polynomial. -/
theorem coeff_toPolynomial_nonneg (hc : ∀ i, 0 ≤ p.coeff i) (i : Nat) :
    0 ≤ p.toPolynomial.coeff i :=
  (hc i).trans_eq (p.coeff_toPolynomial i).symm

/-- The listed coefficients start with the value at the factor of the fraction. -/
theorem substitute_eq_cons (k : α) (hp : p.natDegree ≤ n) :
    ∃ feedback, (p.substitute n k).descending n = p.evaluate k :: feedback := by
  obtain ⟨a₀, feedback, ha⟩ :=
    List.exists_cons_of_length_eq_add_one (length_descending (p.substitute n k) n)
  have h0 : (polynomialOf (a₀ :: feedback)).coeff 0 = p.toPolynomial.eval k := by
    rw [← ha, polynomialOf_substitute k hp,
      coeff_zero_discretized k (p.natDegree_toPolynomial.trans_le hp)]
  rw [coeff_polynomialOf, List.getD_cons_zero, eval_toPolynomial] at h0
  exact ⟨feedback, h0 ▸ ha⟩

omit [IsStrictOrderedRing α] in
/-- The listed coefficients are those of the polynomial in the delay. -/
theorem mem_substitute_iff (k : α) (hp : p.natDegree ≤ n) {c : α} :
    c ∈ (p.substitute n k).descending n ↔
      ∃ m ≤ n, c = (discretized k n p.toPolynomial).coeff m := by
  have hl := length_descending (p.substitute n k) n
  have hcoeff (m : Nat) (hm : m < ((p.substitute n k).descending n).length) :
      ((p.substitute n k).descending n)[m] = (discretized k n p.toPolynomial).coeff m := by
    rw [← polynomialOf_substitute k hp, coeff_polynomialOf, List.getD_eq_getElem?_getD,
      List.getElem?_eq_getElem hm, Option.getD_some]
  constructor
  · intro h
    obtain ⟨m, hm, rfl⟩ := List.getElem_of_mem h
    exact ⟨m, by omega, hcoeff m hm⟩
  · rintro ⟨m, hm, rfl⟩
    have hm : m < ((p.substitute n k).descending n).length := by omega
    rw [← hcoeff m hm]
    exact List.getElem_mem hm

end Poly

namespace DigitalFilter

variable [FloorRing α] [Elementary α] [ExactElementary α]

omit [IsStrictOrderedRing α] in
/-- The greatest magnitude is below a bound if all of them are. -/
theorem largest_lt_iff {cs : List α} {bound : α} (hb : 0 < bound) :
    largest cs < bound ↔ ∀ c ∈ cs, |c| < bound := by
  have hstep : (fun m c : α => if m ≤ Elementary.abs c then Elementary.abs c else m) =
      fun m c => max m |c| := by
    funext m c
    rw [ExactElementary.abs_eq, max_def]
  have hf (m : α) :
      cs.foldl (fun m c => max m |c|) m < bound ↔ m < bound ∧ ∀ c ∈ cs, |c| < bound := by
    induction cs generalizing m with
    | nil => simp
    | cons c cs ih => rw [List.foldl_cons, ih, max_lt_iff, and_assoc, List.forall_mem_cons]
  rw [largest, hstep, hf, and_iff_right hb]

omit [FloorRing α] [Elementary α] [ExactElementary α] in
/-- The rounding error is positive. -/
theorem roundingError_pos : (0 : α) < roundingError := by
  rw [roundingError_eq]
  positivity

/-- The leading coefficient passes if every coefficient, itself too, is less than its multiple by
the inverse of the rounding error. -/
theorem exists_ofCoefficients_iff {b feedback : List α} {a₀ : α} (hb : b ≠ []) :
    (∃ f, ofCoefficients b (a₀ :: feedback) = .ok f) ↔
      ∀ c ∈ a₀ :: feedback, roundingError * |c| < |a₀| := by
  have hr : (0 : α) < roundingError := roundingError_pos
  have hguard (h0 : a₀ ≠ 0) : ¬Elementary.abs a₀ ≤ roundingError * largest (a₀ :: feedback) ↔
      ∀ c ∈ a₀ :: feedback, roundingError * |c| < |a₀| := by
    rw [ExactElementary.abs_eq, not_le, ← lt_div_iff₀' hr,
      largest_lt_iff (div_pos (abs_pos.2 h0) hr)]
    simp only [lt_div_iff₀' hr]
  constructor
  · rintro ⟨f, hf⟩
    obtain ⟨_, _, -, ha, -, hg, -⟩ := ofCoefficients_eq_ok_iff.1 hf
    obtain ⟨rfl, rfl⟩ := List.cons.inj ha
    exact (hguard (leading_ne_zero hg)).1 hg
  · intro h
    have h0 : a₀ ≠ 0 := by
      rintro rfl
      simpa using h 0 List.mem_cons_self
    exact ⟨_, ofCoefficients_eq_ok_iff.2
      ⟨a₀, feedback, hb, rfl, isFinite_eq_true _, (hguard h0).2 h, rfl⟩⟩

omit [IsStrictOrderedRing α] [FloorRing α] [ExactElementary α] in
/-- A filter is refused for its leading coefficient or not at all. -/
theorem ofCoefficients_eq_error {b feedback : List α} {a₀ : α} (hb : b ≠ [])
    (h : ¬∃ f, ofCoefficients b (a₀ :: feedback) = .ok f) :
    ofCoefficients b (a₀ :: feedback) = .error (.degenerate (.leading a₀)) := by
  obtain ⟨b₀, bs, rfl⟩ := List.exists_cons_of_ne_nil hb
  rw [ofCoefficients] at h ⊢
  split at h
  · next hg => rw [if_pos hg]
  · exact absurd ⟨_, rfl⟩ h

variable {rate : α} {h : TransferFunction α} {n : Nat}

omit [FloorRing α] [ExactElementary α] in
/-- The coefficients that the filter of a proper transfer function is made of. The leading one is
the value of the denominator at the factor of the fraction. -/
theorem ofTransferFunction_eq (hd : h.denominator.degree? = some n)
    (hn : h.numerator.natDegree ≤ n) (hr : 0 < rate) :
    ∃ b feedback, b ≠ [] ∧
      h.bilinear rate = .ok (b, h.denominator.evaluate (2 * rate) :: feedback) ∧
      ofTransferFunction rate h =
        ofCoefficients b (h.denominator.evaluate (2 * rate) :: feedback) ∧
      ∀ c, c ∈ h.denominator.evaluate (2 * rate) :: feedback ↔
        ∃ m ≤ n, c = (discretized (2 * rate) n h.denominator.toPolynomial).coeff m := by
  have hd' := (Poly.natDegree_eq_of_degree? hd).le
  obtain ⟨feedback, ha⟩ := Poly.substitute_eq_cons (2 * rate) hd'
  have hba := TransferFunction.bilinear_eq_ok_iff.2 ⟨n, hd, hn, hr, rfl⟩
  rw [ha] at hba
  refine ⟨_, feedback, List.ne_nil_of_length_eq_add_one (Poly.length_descending _ n), hba, ?_,
    fun c => ha ▸ Poly.mem_substitute_iff (2 * rate) hd'⟩
  rw [ofTransferFunction, hba, ok_bind]

omit [IsStrictOrderedRing α] [FloorRing α] [Elementary α] [ExactElementary α] in
/-- The greatest binomial coefficients up to an exponent of 55 are below the inverse of the rounding
error. -/
theorem choose_lt_two_pow (hn : n ≤ 55) (m : Nat) : n.choose m < 2 ^ 52 :=
  calc n.choose m ≤ Nat.choose 55 m := Nat.choose_le_choose m hn
    _ ≤ Nat.choose 55 27 := Nat.choose_le_middle m 55
    _ < 2 ^ 52 := by
      rw [Nat.choose_eq_descFactorial_div_factorial]
      decide

/-- A proper transfer function of an order up to 55 has a discrete form at every positive rate if
its denominator has no negative coefficient. -/
theorem exists_ofTransferFunction (hd : h.denominator.degree? = some n)
    (hn : h.numerator.natDegree ≤ n) (hr : 0 < rate) (hn' : n ≤ 55)
    (hc : ∀ i, 0 ≤ h.denominator.coeff i) : ∃ f, ofTransferFunction rate h = .ok f := by
  obtain ⟨b, feedback, hb, -, he, hmem⟩ := ofTransferFunction_eq hd hn hr
  have hk : 0 < 2 * rate := mul_pos two_pos hr
  have hpos : 0 < h.denominator.toPolynomial.eval (2 * rate) :=
    eval_pos_of_coeff_nonneg (Poly.toPolynomial_ne_zero hd) (Poly.coeff_toPolynomial_nonneg hc) hk
  rw [he, exists_ofCoefficients_iff hb]
  intro c hc'
  obtain ⟨m, -, rfl⟩ := (hmem c).1 hc'
  have hround : (roundingError : α) * n.choose m < 1 := by
    rw [roundingError_eq, one_div, inv_mul_lt_one₀ (by positivity)]
    exact_mod_cast choose_lt_two_pow hn' m
  rw [← Poly.eval_toPolynomial, abs_of_pos hpos]
  calc roundingError * |(discretized (2 * rate) n h.denominator.toPolynomial).coeff m|
      ≤ roundingError * (n.choose m * h.denominator.toPolynomial.eval (2 * rate)) :=
        mul_le_mul_of_nonneg_left (abs_coeff_discretized_le hk.le
          (Poly.natDegree_of_degree? hd).le (Poly.coeff_toPolynomial_nonneg hc) m)
          roundingError_pos.le
    _ = roundingError * n.choose m * h.denominator.toPolynomial.eval (2 * rate) :=
        (mul_assoc _ _ _).symm
    _ < h.denominator.toPolynomial.eval (2 * rate) := mul_lt_of_lt_one_left hpos hround

end DigitalFilter

end SignalCalc
