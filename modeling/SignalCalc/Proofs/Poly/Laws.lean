import Mathlib.Algebra.Polynomial.Coeff
import Mathlib.RingTheory.Polynomial.Tower
import SignalCalc.Proofs.Poly.Complex

/-!
# The ring of polynomials in normal form

The coefficients that an operation gives are those of the sum, the product and so on, and the list
of them never ends in a zero (`IsNormalForm`). A list in this form is determined by the coefficients
(`IsNormalForm.unique`), so that laws which hold of the coefficients hold of the lists, and the map
into the polynomials of the library carries all laws over. Degrees add up in products, since a field
has no divisors of zero. Values at a number go along with all operations (`IsEvaluation`), because
they are values in the sense of the library, for real and for complex numbers alike.

Main statement: `Poly.normal_forms_are_a_ring`.
-/

namespace SignalCalc

open Polynomial

namespace Poly

section Laws

variable {α : Type} [CommRing α]

/-! ## Normal forms -/

/-- A list of coefficients that has the given one at every power and does not end in a zero. -/
structure IsNormalForm (cs : List α) (coeff : Nat → α) : Prop where
  getD_eq : ∀ n, cs.getD n 0 = coeff n
  getLast_ne : ∀ c, cs.getLast? = some c → c ≠ 0

variable [BEq α] [LawfulBEq α]

/-- The coefficients of a polynomial are a normal form of it. -/
theorem isNormalForm (p : Poly α) : IsNormalForm p.coeffs p.coeff where
  getD_eq _ := rfl
  getLast_ne c hc := beq_eq_false_iff_ne.1 (p.noTrailingZero c hc)

/-- Only one normal form has given coefficients. -/
theorem IsNormalForm.unique {as bs : List α} {coeff : Nat → α} (ha : IsNormalForm as coeff)
    (hb : IsNormalForm bs coeff) : as = bs := by
  have hp : NoTrailingZero as := fun c hc => beq_eq_false_iff_ne.2 (ha.getLast_ne c hc)
  have hq : NoTrailingZero bs := fun c hc => beq_eq_false_iff_ne.2 (hb.getLast_ne c hc)
  have h : (⟨as, hp⟩ : Poly α).toPolynomial = (⟨bs, hq⟩ : Poly α).toPolynomial := by
    ext n
    rw [coeff_toPolynomial, coeff_toPolynomial]
    exact (ha.getD_eq n).trans (hb.getD_eq n).symm
  exact congrArg Poly.coeffs (toPolynomial_injective h)

/-- Polynomials with the same coefficient at every power are equal. -/
theorem ext_coeff {p q : Poly α} (h : ∀ n, p.coeff n = q.coeff n) : p = q :=
  Poly.ext (p.isNormalForm.unique (funext h ▸ q.isNormalForm))

/-- A polynomial is in normal form, whatever its coefficients are called. -/
theorem isNormalForm_of_coeff {p : Poly α} {coeff : Nat → α}
    (h : ∀ n, p.toPolynomial.coeff n = coeff n) : IsNormalForm p.coeffs coeff where
  getD_eq n := (p.coeff_toPolynomial n).symm.trans (h n)
  getLast_ne := p.isNormalForm.getLast_ne

section Operations

variable (p q : Poly α)

/-- A list without its trailing zeros is the normal form of the list. -/
theorem isNormalForm_ofList (cs : List α) : IsNormalForm (ofList cs).coeffs (cs.getD · 0) := by
  refine isNormalForm_of_coeff fun n => ?_
  rw [toPolynomial_ofList, coeff_polynomialOf]

/-- The normal form of a constant. -/
theorem isNormalForm_const (c : α) :
    IsNormalForm (const c).coeffs fun n => if n = 0 then c else 0 := by
  refine isNormalForm_of_coeff fun n => ?_
  rw [toPolynomial_const, coeff_C]

/-- The normal form of a power of the variable. -/
theorem isNormalForm_monomial (m : Nat) :
    IsNormalForm (monomial m : Poly α).coeffs fun n => if n = m then 1 else 0 := by
  refine isNormalForm_of_coeff fun n => ?_
  rw [toPolynomial_monomial, coeff_X_pow]

/-- The normal form under a factor. -/
theorem isNormalForm_scale (a : α) : IsNormalForm (p.scale a).coeffs fun n => p.coeff n * a := by
  refine isNormalForm_of_coeff fun n => ?_
  rw [toPolynomial_scale, coeff_mul_C, coeff_toPolynomial]

/-- The normal form with the sign changed. -/
theorem isNormalForm_neg : IsNormalForm (-p).coeffs fun n => -p.coeff n := by
  refine isNormalForm_of_coeff fun n => ?_
  rw [toPolynomial_neg, coeff_neg, coeff_toPolynomial]

/-- The normal form of a sum, which cancels terms. -/
theorem isNormalForm_add : IsNormalForm (p + q).coeffs fun n => p.coeff n + q.coeff n := by
  refine isNormalForm_of_coeff fun n => ?_
  rw [toPolynomial_add, coeff_add, coeff_toPolynomial, coeff_toPolynomial]

/-- The normal form of a difference, which cancels terms. -/
theorem isNormalForm_sub : IsNormalForm (p - q).coeffs fun n => p.coeff n - q.coeff n := by
  refine isNormalForm_of_coeff fun n => ?_
  rw [toPolynomial_sub, coeff_sub, coeff_toPolynomial, coeff_toPolynomial]

/-- The normal form of a product, by the sums of products whose powers add up. -/
theorem isNormalForm_mul :
    IsNormalForm (p * q).coeffs fun n =>
      ∑ k ∈ Finset.range (n + 1), p.coeff k * q.coeff (n - k) := by
  refine isNormalForm_of_coeff fun n => ?_
  rw [toPolynomial_mul, coeff_mul, Finset.Nat.sum_antidiagonal_eq_sum_range_succ_mk]
  simp only [coeff_toPolynomial]

/-- The normal form of a power. -/
theorem isNormalForm_pow (m : Nat) : IsNormalForm (p.pow m).coeffs (p.toPolynomial ^ m).coeff := by
  refine isNormalForm_of_coeff fun n => ?_
  rw [toPolynomial_pow]

end Operations

/-! ## Laws -/

/-- Exponents of one base add up. -/
theorem pow_exponent_add (p : Poly α) (m n : Nat) : p.pow (m + n) = p.pow m * p.pow n := by
  apply toPolynomial_injective
  rw [toPolynomial_mul, toPolynomial_pow, toPolynomial_pow, toPolynomial_pow, pow_add]

/-- Degrees add up in a product. -/
theorem degree?_mul [IsDomain α] {p q : Poly α} {m n : Nat} (hp : p.degree? = some m)
    (hq : q.degree? = some n) : (p * q).degree? = some (m + n) := by
  have hp0 := toPolynomial_ne_zero hp
  have hq0 := toPolynomial_ne_zero hq
  have hpq : (p * q).toPolynomial ≠ 0 := by
    rw [toPolynomial_mul]
    exact mul_ne_zero hp0 hq0
  rw [degree?_of_ne_zero hpq, ← natDegree_toPolynomial, toPolynomial_mul, natDegree_mul hp0 hq0,
    natDegree_of_degree? hp, natDegree_of_degree? hq]

/-! ## Values -/

variable {K : Type*} [CommRing K] [Algebra α K]

/-- Values of polynomials that go along with all operations. -/
structure IsEvaluation (value : Poly α → K) : Prop where
  const : ∀ c, value (const c) = algebraMap α K c
  add : ∀ p q, value (p + q) = value p + value q
  sub : ∀ p q, value (p - q) = value p - value q
  mul : ∀ p q, value (p * q) = value p * value q
  neg : ∀ p, value (-p) = -value p
  scale : ∀ p a, value (p.scale a) = value p * algebraMap α K a
  pow : ∀ p n, value (p.pow n) = value p ^ n

/-- The value at a point of a larger field respects all operations. -/
theorem isEvaluation_aeval (x : K) : IsEvaluation fun p : Poly α => aeval x p.toPolynomial := by
  constructor <;> intros <;> simp

end Laws

/-- The normal form of the polynomial of roots, by the real parts of the product over the roots. -/
theorem isNormalForm_ofRoots (roots : List (Cplx ℝ)) :
    IsNormalForm (ofRoots roots).coeffs fun n => ((rootProduct roots).coeff n).re :=
  isNormalForm_of_coeff (coeff_ofRoots roots)

/-- A real number and the same number as a complex one give the same value. -/
theorem evaluateCplx_ofReal (p : Poly ℝ) (x : ℝ) :
    p.evaluateCplx (Cplx.ofReal x) = Cplx.ofReal (p.evaluate x) := by
  apply Cplx.toComplex_injective
  rw [toComplex_evaluateCplx, Cplx.toComplex_ofReal, Cplx.toComplex_ofReal, ← eval_toPolynomial,
    ← Complex.coe_algebraMap, aeval_algebraMap_apply, coe_aeval_eq_eval]

/-- **Normal forms are a commutative ring.** Every operation gives the coefficients that it has to
give and no zero as the highest one, so polynomials with the same coefficients are equal. The laws
of a commutative ring hold as equations between polynomials, with the constants zero and one as the
neutral ones; degrees add up in products, and exponents in products of powers. Values at real and at
complex numbers go along with all operations, and agree where a complex number is real. -/
theorem normal_forms_are_a_ring :
    ((∀ cs, IsNormalForm (ofList cs : Poly ℝ).coeffs (cs.getD · 0)) ∧
      (∀ c, IsNormalForm (const c : Poly ℝ).coeffs fun n => if n = 0 then c else 0) ∧
      (∀ m, IsNormalForm (monomial m : Poly ℝ).coeffs fun n => if n = m then 1 else 0) ∧
      (∀ roots, IsNormalForm (ofRoots roots).coeffs fun n => ((rootProduct roots).coeff n).re) ∧
      ∀ p q : Poly ℝ,
        (∀ a, IsNormalForm (p.scale a).coeffs fun n => p.coeff n * a) ∧
        (∀ m, IsNormalForm (p.pow m).coeffs (p.toPolynomial ^ m).coeff) ∧
        (IsNormalForm (-p).coeffs fun n => -p.coeff n) ∧
        (IsNormalForm (p + q).coeffs fun n => p.coeff n + q.coeff n) ∧
        (IsNormalForm (p - q).coeffs fun n => p.coeff n - q.coeff n) ∧
        (IsNormalForm (p * q).coeffs fun n =>
          ∑ k ∈ Finset.range (n + 1), p.coeff k * q.coeff (n - k)) ∧
        ((∀ n, p.coeff n = q.coeff n) → p = q)) ∧
    (∀ p q r : Poly ℝ,
      p + q + r = p + (q + r) ∧ p + q = q + p ∧ 0 + p = p ∧ -p + p = 0 ∧ p - q = p + -q ∧
      p * q * r = p * (q * r) ∧ p * q = q * p ∧ const 1 * p = p ∧ p * (q + r) = p * q + p * r ∧
      (∀ m n, p.degree? = some m → q.degree? = some n → (p * q).degree? = some (m + n)) ∧
      p.pow 0 = const 1 ∧ p.pow 1 = p ∧ ∀ m n, p.pow (m + n) = p.pow m * p.pow n) ∧
    (∀ x : ℝ, IsEvaluation fun p : Poly ℝ => p.evaluate x) ∧
    (∀ z : Cplx ℝ, IsEvaluation fun p : Poly ℝ => (p.evaluateCplx z).toComplex) ∧
    ∀ (p : Poly ℝ) (x : ℝ), p.evaluateCplx (Cplx.ofReal x) = Cplx.ofReal (p.evaluate x) := by
  refine ⟨⟨isNormalForm_ofList, isNormalForm_const, isNormalForm_monomial, isNormalForm_ofRoots,
    fun p q => ⟨isNormalForm_scale p, isNormalForm_pow p, isNormalForm_neg p, isNormalForm_add p q,
      isNormalForm_sub p q, isNormalForm_mul p q, ext_coeff⟩⟩, ?_, ?_, ?_, evaluateCplx_ofReal⟩
  · intro p q r
    refine ⟨?_, ?_, ?_, ?_, rfl, ?_, ?_, ?_, ?_, fun m n => degree?_mul, rfl, ?_,
      pow_exponent_add p⟩ <;> apply toPolynomial_injective
    · simp only [toPolynomial_add, add_assoc]
    · simp only [toPolynomial_add, add_comm]
    · simp only [toPolynomial_add, toPolynomial_zero, zero_add]
    · simp only [toPolynomial_add, toPolynomial_neg, toPolynomial_zero, neg_add_cancel]
    · simp only [toPolynomial_mul, mul_assoc]
    · simp only [toPolynomial_mul, mul_comm]
    · simp only [toPolynomial_mul, toPolynomial_const, C_1, one_mul]
    · simp only [toPolynomial_mul, toPolynomial_add, mul_add]
    · rw [toPolynomial_pow, pow_one]
  · intro x
    have h := isEvaluation_aeval (α := ℝ) x
    simpa only [coe_aeval_eq_eval, eval_toPolynomial] using h
  · intro z
    have h := isEvaluation_aeval (α := ℝ) z.toComplex
    simpa only [← toComplex_evaluateCplx] using h

/-- Two polynomials of second order whose sum is a constant. The second one is given with a zero too
many. -/
theorem normal_forms_are_a_ring_cancelled :
    let p : Poly ℝ := ofList [1, 2, 3]
    let q : Poly ℝ := ofList [5, -2, -3, 0]
    p.degree? = some 2 ∧ q.degree? = some 2 ∧ (p * q).degree? = some 4 ∧ p + q = const 6 := by
  intro p q
  have hp : p.degree? = some 2 := by simp [p, degree?, dropTrailingZeros]
  have hq : q.degree? = some 2 := by simp [q, degree?, dropTrailingZeros]
  obtain ⟨⟨hlist, hconst, -, -, hop⟩, hring, -⟩ := normal_forms_are_a_ring
  have hsum : ∀ n, (p + q).coeff n = (const 6).coeff n := by
    intro n
    have hcoeff : (p + q).coeff n = p.coeff n + q.coeff n := (hop p q).2.2.2.1.getD_eq n
    have hpn : p.coeff n = [1, 2, 3].getD n 0 := (hlist _).getD_eq n
    have hqn : q.coeff n = [5, -2, -3, 0].getD n 0 := (hlist _).getD_eq n
    have hcn : (const 6 : Poly ℝ).coeff n = if n = 0 then 6 else 0 := (hconst 6).getD_eq n
    rw [hcoeff, hpn, hqn, hcn]
    rcases n with _ | _ | _ | _ | n <;> norm_num
  obtain ⟨-, -, -, -, -, -, -, -, -, hdegree, -⟩ := hring p q 0
  exact ⟨hp, hq, hdegree 2 2 hp hq, (hop (p + q) (const 6)).2.2.2.2.2.2 hsum⟩

end Poly

end SignalCalc
