import Mathlib.Algebra.Polynomial.BigOperators
import Mathlib.Algebra.Polynomial.FieldDivision
import Mathlib.Algebra.Polynomial.Roots
import Mathlib.Analysis.CStarAlgebra.Classes
import Mathlib.Tactic.Ring
import SignalCalc.Proofs.Cplx
import SignalCalc.Proofs.Poly.Ring

/-!
# Complex values and roots

The value of a polynomial at a complex number is that of the polynomial of the library. Expanding
the product over a list of roots gives the coefficients of `rootProduct`. If the conjugates of the
roots are the roots again, in any order, the product is its own conjugate, so that nothing is lost
with the imaginary parts.

Main statements: `Poly.toComplex_evaluateCplx`, `Poly.map_ofRoots`.
-/

namespace SignalCalc

open Polynomial

/-- The product of `s - r` over a list of roots. -/
noncomputable def rootProduct (roots : List (Cplx ℝ)) : ℂ[X] :=
  (roots.map fun r => X - C r.toComplex).prod

namespace Poly

/-- The value at a complex number. -/
theorem toComplex_evaluateCplx (p : Poly ℝ) (z : Cplx ℝ) :
    (p.evaluateCplx z).toComplex = aeval z.toComplex p.toPolynomial := by
  have h (cs : List ℝ) : (cs.foldr (fun c acc => (acc * z).addReal c) 0 : Cplx ℝ).toComplex =
      aeval z.toComplex (polynomialOf cs) := by
    induction cs with
    | nil => simp
    | cons c cs ih =>
      rw [List.foldr_cons, Cplx.toComplex_addReal, Cplx.toComplex_mul, ih, polynomialOf_cons]
      simp only [map_add, map_mul, aeval_C, aeval_X, Complex.coe_algebraMap]
      ring
  exact h p.coeffs

/-- One step of the expansion multiplies with the factor of a root. -/
theorem polynomialOf_timesRoot (root moved : Cplx ℝ) (cs : List (Cplx ℝ)) :
    polynomialOf ((timesRoot root moved cs).map Cplx.toComplex) =
      C moved.toComplex + (X - C root.toComplex) * polynomialOf (cs.map Cplx.toComplex) := by
  induction cs generalizing moved with
  | nil => simp [timesRoot]
  | cons c cs ih =>
    rw [timesRoot, List.map_cons, polynomialOf_cons, ih, List.map_cons, polynomialOf_cons]
    simp only [Cplx.toComplex_sub, Cplx.toComplex_mul, Cplx.toComplex_add, Cplx.toComplex_zero,
      zero_add, C_sub, C_mul]
    ring

/-- Multiplying the roots in one by one multiplies by the product over all of them. -/
theorem polynomialOf_foldl_timesRoot (roots cs : List (Cplx ℝ)) :
    polynomialOf ((roots.foldl (fun cs root => timesRoot root 0 cs) cs).map Cplx.toComplex) =
      rootProduct roots * polynomialOf (cs.map Cplx.toComplex) := by
  induction roots generalizing cs with
  | nil => simp [rootProduct]
  | cons root roots ih =>
    rw [List.foldl_cons, ih, polynomialOf_timesRoot, rootProduct, rootProduct, List.map_cons,
      List.prod_cons, Cplx.toComplex_zero, C_0, zero_add]
    ring

/-- The coefficients of the product over the roots, with their imaginary parts. -/
def expandedRoots (roots : List (Cplx ℝ)) : List (Cplx ℝ) :=
  roots.foldl (fun cs root => timesRoot root 0 cs) [Cplx.ofReal 1]

/-- The polynomial of roots has the real parts of the expanded coefficients. -/
theorem ofRoots_eq (roots : List (Cplx ℝ)) :
    ofRoots roots = ofList ((expandedRoots roots).map (·.re)) :=
  rfl

/-- The expanded coefficients are those of the product over the roots. -/
theorem polynomialOf_expandedRoots (roots : List (Cplx ℝ)) :
    polynomialOf ((expandedRoots roots).map Cplx.toComplex) = rootProduct roots := by
  rw [expandedRoots, polynomialOf_foldl_timesRoot, List.map_singleton, Cplx.toComplex_ofReal,
    polynomialOf_cons, polynomialOf_nil, mul_zero, add_zero, Complex.ofReal_one, C_1, mul_one]

/-- The coefficients are the real parts of those of the product. -/
theorem coeff_ofRoots (roots : List (Cplx ℝ)) (n : Nat) :
    (ofRoots roots).toPolynomial.coeff n = ((rootProduct roots).coeff n).re := by
  rw [ofRoots_eq, toPolynomial_ofList, coeff_polynomialOf, ← polynomialOf_expandedRoots,
    coeff_polynomialOf, List.getD_eq_getElem?_getD, List.getD_eq_getElem?_getD, List.getElem?_map,
    List.getElem?_map]
  cases (expandedRoots roots)[n]? <;> rfl

end Poly

/-- The product does not depend on the order of the roots. -/
theorem rootProduct_perm {roots roots' : List (Cplx ℝ)} (h : roots.Perm roots') :
    rootProduct roots = rootProduct roots' :=
  (h.map _).prod_eq

/-- The conjugate of the product is the product over the conjugates. -/
theorem map_conj_rootProduct (roots : List (Cplx ℝ)) :
    (rootProduct roots).map (starRingEnd ℂ) = rootProduct (roots.map Cplx.conj) := by
  simp [rootProduct, Polynomial.map_list_prod, Function.comp_def]

/-- The value of the product is the product of the differences to the roots. -/
theorem eval_rootProduct (roots : List (Cplx ℝ)) (z : ℂ) :
    (rootProduct roots).eval z = (roots.map fun r => z - r.toComplex).prod := by
  simp [rootProduct, eval_list_prod, Function.comp_def]

/-- The product over the roots as one over a multiset. -/
theorem rootProduct_eq_prod (roots : List (Cplx ℝ)) :
    rootProduct roots =
      (Multiset.map (fun a => X - C a) (roots.map Cplx.toComplex : Multiset ℂ)).prod := by
  simp [rootProduct, Function.comp_def]

/-- The product over roots is monic. -/
theorem monic_rootProduct (roots : List (Cplx ℝ)) : (rootProduct roots).Monic := by
  rw [rootProduct_eq_prod]
  exact monic_multisetProd_X_sub_C _

/-- The product over roots has their number as its degree. -/
theorem natDegree_rootProduct (roots : List (Cplx ℝ)) :
    (rootProduct roots).natDegree = roots.length := by
  rw [rootProduct_eq_prod, natDegree_multiset_prod_X_sub_C_eq_card, Multiset.coe_card,
    List.length_map]

namespace Poly

variable {roots : List (Cplx ℝ)}

/-- Roots that come with their conjugates make coefficients that are their own conjugates. -/
theorem conj_coeff_rootProduct (h : (roots.map Cplx.conj).Perm roots) (n : Nat) :
    (starRingEnd ℂ) ((rootProduct roots).coeff n) = (rootProduct roots).coeff n := by
  rw [← coeff_map, map_conj_rootProduct, rootProduct_perm h]

/-- Roots that come in conjugate pairs leave no imaginary part. -/
theorem im_eq_zero_of_mem_expandedRoots (h : (roots.map Cplx.conj).Perm roots) {c : Cplx ℝ}
    (hc : c ∈ expandedRoots roots) : c.im = 0 := by
  obtain ⟨n, hn⟩ := List.mem_iff_getElem?.1 hc
  have hcoeff : (rootProduct roots).coeff n = c.toComplex := by
    rw [← polynomialOf_expandedRoots, coeff_polynomialOf, List.getD_eq_getElem?_getD,
      List.getElem?_map, hn]
    rfl
  have hconj := conj_coeff_rootProduct h n
  rw [hcoeff] at hconj
  exact Complex.conj_eq_iff_im.1 hconj

/-- Roots that come in conjugate pairs are expanded without a loss. -/
theorem map_ofRoots (h : (roots.map Cplx.conj).Perm roots) :
    (ofRoots roots).toPolynomial.map (algebraMap ℝ ℂ) = rootProduct roots := by
  ext n
  rw [coeff_map, coeff_ofRoots]
  exact Complex.conj_eq_iff_re.1 (conj_coeff_rootProduct h n)

/-- The polynomial of roots that come with their conjugates is monic. -/
theorem monic_ofRoots (h : (roots.map Cplx.conj).Perm roots) :
    (ofRoots roots).toPolynomial.Monic := by
  refine monic_of_injective (algebraMap ℝ ℂ).injective ?_
  rw [map_ofRoots h]
  exact monic_rootProduct roots

/-- The polynomial of roots that come with their conjugates has their number as its degree. -/
theorem natDegree_ofRoots (h : (roots.map Cplx.conj).Perm roots) :
    (ofRoots roots).toPolynomial.natDegree = roots.length := by
  rw [← natDegree_map (algebraMap ℝ ℂ), map_ofRoots h, natDegree_rootProduct]

/-- The polynomial of roots that come with their conjugates has the differences to the roots as its
factors. -/
theorem aeval_ofRoots (h : (roots.map Cplx.conj).Perm roots) (z : ℂ) :
    aeval z (ofRoots roots).toPolynomial = (roots.map fun r => z - r.toComplex).prod := by
  rw [← eval_map_algebraMap, map_ofRoots h, eval_rootProduct]

end Poly

end SignalCalc
