import Mathlib.Analysis.Complex.Polynomial.Basic
import SignalCalc.Proofs.Filter.Design
import SignalCalc.Proofs.Poly.Complex

/-!
# Stable polynomials

A polynomial is stable if all of its complex roots lie to the left of the imaginary axis
(`StableMonic`). Products of stable polynomials are stable, a section of first or second order with
positive coefficients is stable, and so is the product over a list of roots on the left that come in
conjugate pairs. A stable polynomial is itself a product of such sections, since its roots do come
in pairs; hence it has no negative coefficient (`StableMonic.positiveMonic`).
-/

namespace SignalCalc

open Polynomial

/-- A monic polynomial of the given degree with all its complex roots to the left of the imaginary
axis. -/
structure StableMonic (p : ℝ[X]) (n : Nat) : Prop where
  monic : p.Monic
  natDegree_eq : p.natDegree = n
  re_neg : ∀ z : ℂ, aeval z p = 0 → z.re < 0

namespace StableMonic

variable {p q : ℝ[X]} {m n : Nat}

/-! ## Sections and products -/

/-- The constant one has no roots at all. -/
theorem one : StableMonic 1 0 where
  monic := monic_one
  natDegree_eq := natDegree_one
  re_neg z hz := by
    rw [map_one] at hz
    exact absurd hz one_ne_zero

/-- The roots of a product are those of its factors. -/
theorem mul (hp : StableMonic p m) (hq : StableMonic q n) : StableMonic (p * q) (m + n) where
  monic := hp.monic.mul hq.monic
  natDegree_eq := by rw [hp.monic.natDegree_mul hq.monic, hp.natDegree_eq, hq.natDegree_eq]
  re_neg z hz := by
    rw [map_mul] at hz
    rcases mul_eq_zero.1 hz with hz | hz
    · exact hp.re_neg z hz
    · exact hq.re_neg z hz

/-- The roots of a power are those of its base. -/
theorem pow (hp : StableMonic p m) (n : Nat) : StableMonic (p ^ n) (n * m) := by
  induction n with
  | zero => simpa using one
  | succ n ih => simpa [pow_succ, Nat.succ_mul] using ih.mul hp

/-- The root of a section of the first order is a negative number. -/
theorem first {omega : ℝ} (h : 0 < omega) : StableMonic (X + C omega) 1 where
  monic := monic_X_add_C omega
  natDegree_eq := natDegree_X_add_C omega
  re_neg z hz := by
    have hre : z.re + omega = 0 := by simpa using congrArg Complex.re hz
    linarith

/-- The imaginary part of the equation says that a root to the right is real, and there the real
part has no zero. -/
theorem second {c₁ c₀ : ℝ} (h₁ : 0 < c₁) (h₀ : 0 < c₀) :
    StableMonic (X ^ 2 + C c₁ * X + C c₀) 2 where
  monic := by monicity!
  natDegree_eq := by compute_degree!
  re_neg z hz := by
    have hre : z.re * z.re - z.im * z.im + c₁ * z.re + c₀ = 0 := by
      simpa [pow_two] using congrArg Complex.re hz
    have him : z.re * z.im + z.im * z.re + c₁ * z.im = 0 := by
      simpa [pow_two] using congrArg Complex.im hz
    by_contra hright
    have hright : 0 ≤ z.re := not_lt.1 hright
    have hreal : z.im = 0 := by
      have hfactor : z.im * (2 * z.re + c₁) = 0 := by linarith
      rcases mul_eq_zero.1 hfactor with h | h
      · exact h
      · linarith
    have hpos : 0 ≤ z.re * z.re + c₁ * z.re := by positivity
    rw [hreal] at hre
    linarith

/-- A product over roots on the left. -/
theorem ofRoots {roots : List (Cplx ℝ)} (hc : (roots.map Cplx.conj).Perm roots)
    (hr : ∀ r ∈ roots, r.re < 0) : StableMonic (Poly.ofRoots roots).toPolynomial roots.length where
  monic := Poly.monic_ofRoots hc
  natDegree_eq := Poly.natDegree_ofRoots hc
  re_neg z hz := by
    rw [Poly.aeval_ofRoots hc, List.prod_eq_zero_iff] at hz
    obtain ⟨r, hmem, hz⟩ := List.mem_map.1 hz
    rw [sub_eq_zero.1 hz]
    exact hr r hmem

/-! ## Positive coefficients -/

/-- What a stable polynomial leaves when a factor is divided out. -/
theorem of_mul_left {d : Nat} (hp : p.Monic) (h : StableMonic (p * q) n) (hd : p.natDegree = d) :
    ∃ m, n = d + m ∧ StableMonic q m := by
  have hq : q.Monic := hp.of_mul_monic_left h.monic
  refine ⟨q.natDegree, ?_, hq, rfl, fun z hz => h.re_neg z ?_⟩
  · rw [← h.natDegree_eq, hp.natDegree_mul hq, hd]
  · rw [map_mul, hz, mul_zero]

/-- A root has a section of first or second order, by its being real or not, so the induction is on
the degree. -/
theorem positiveMonic (h : StableMonic p n) : PositiveMonic p n := by
  induction n using Nat.strong_induction_on generalizing p with
  | _ n ih =>
    rcases Nat.eq_zero_or_pos n with rfl | hn
    · rw [eq_one_of_monic_natDegree_zero h.monic h.natDegree_eq]
      exact PositiveMonic.one
    have hdeg : p.degree ≠ 0 := by
      rw [degree_eq_natDegree h.monic.ne_zero, h.natDegree_eq]
      exact_mod_cast hn.ne'
    obtain ⟨z, hz⟩ := IsAlgClosed.exists_aeval_eq_zero ℂ p hdeg
    have hre := h.re_neg z hz
    -- A real root splits off a section of the first order, two conjugate ones one of the second.
    by_cases him : z.im = 0
    · have hreal : (z.re : ℂ) = z := Complex.ext rfl him.symm
      have hroot : p.IsRoot z.re := by
        rw [← hreal, ← Complex.coe_algebraMap, aeval_algebraMap_apply, coe_aeval_eq_eval,
          map_eq_zero] at hz
        exact hz
      obtain ⟨q, rfl⟩ := dvd_iff_isRoot.2 hroot
      obtain ⟨m, rfl, hq⟩ := h.of_mul_left (monic_X_sub_C _) (natDegree_X_sub_C _)
      have hs := PositiveMonic.first (neg_nonneg.2 hre.le)
      rw [C_neg, ← sub_eq_add_neg] at hs
      exact hs.mul (ih m (by omega) hq)
    · obtain ⟨q, rfl⟩ := quadratic_dvd_of_aeval_eq_zero_im_ne_zero p hz him
      have hs : PositiveMonic (X ^ 2 + C (-(2 * z.re)) * X + C (‖z‖ ^ 2)) 2 :=
        PositiveMonic.second (by linarith) (by positivity)
      rw [C_neg, neg_mul, ← sub_eq_add_neg] at hs
      obtain ⟨m, rfl, hq⟩ := h.of_mul_left hs.monic hs.natDegree_eq
      exact hs.mul (ih m (by omega) hq)

/-- Zero is no root. -/
theorem coeff_zero_ne (h : StableMonic p n) : p.coeff 0 ≠ 0 := by
  intro h0
  have hz : aeval (0 : ℂ) p = 0 := by
    rw [← coeff_zero_eq_aeval_zero', h0, map_zero]
  exact lt_irrefl _ (h.re_neg 0 hz)

end StableMonic

end SignalCalc
