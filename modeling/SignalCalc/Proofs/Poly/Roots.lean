import Mathlib.Data.List.Perm.Basic
import SignalCalc.Proofs.Poly.Complex

/-!
# The expansion of conjugate roots

A product over roots determines them up to their order (`perm_of_rootProduct_eq`). Its conjugate is
the product over the conjugates, so it has real coefficients just if the roots are their own
conjugates in some order. In this case the coefficients that are kept are all of the expansion.

Main statement: `Poly.conjugate_roots_expand`.
-/

namespace SignalCalc

open Polynomial

/-- Only one list of roots, up to the order, has a given product. -/
theorem perm_of_rootProduct_eq {roots roots' : List (Cplx ℝ)}
    (h : rootProduct roots = rootProduct roots') : roots.Perm roots' := by
  have hroots := congrArg Polynomial.roots h
  rw [rootProduct_eq_prod, rootProduct_eq_prod, roots_multiset_prod_X_sub_C,
    roots_multiset_prod_X_sub_C, Multiset.coe_eq_coe] at hroots
  exact (List.map_perm_map_iff Cplx.toComplex_injective).1 hroots

namespace Poly

variable {roots : List (Cplx ℝ)}

/-- One more root makes one more coefficient. -/
theorem length_timesRoot (root moved : Cplx ℝ) (cs : List (Cplx ℝ)) :
    (timesRoot root moved cs).length = cs.length + 1 := by
  induction cs generalizing moved with
  | nil => rfl
  | cons c cs ih => rw [timesRoot, List.length_cons, ih, List.length_cons]

/-- Every root adds one power. -/
theorem length_expandedRoots (roots : List (Cplx ℝ)) :
    (expandedRoots roots).length = roots.length + 1 := by
  have h (cs : List (Cplx ℝ)) :
      (roots.foldl (fun cs root => timesRoot root 0 cs) cs).length = cs.length + roots.length := by
    induction roots generalizing cs with
    | nil => rfl
    | cons root roots ih =>
      rw [List.foldl_cons, ih, length_timesRoot, List.length_cons]
      omega
  rw [expandedRoots, h, List.length_singleton, Nat.add_comm]

/-- The expansion is real just if the roots are their own conjugates in some order. -/
theorem forall_im_eq_zero_iff :
    (∀ c ∈ expandedRoots roots, c.im = 0) ↔ (roots.map Cplx.conj).Perm roots := by
  constructor
  · intro h
    apply perm_of_rootProduct_eq
    rw [← map_conj_rootProduct, ← polynomialOf_expandedRoots]
    ext n
    rw [coeff_map, coeff_polynomialOf, List.getD_eq_getElem?_getD, List.getElem?_map]
    cases hn : (expandedRoots roots)[n]? with
    | none => exact map_zero _
    | some c =>
      have him : c.im = 0 := h c (List.mem_of_getElem? hn)
      exact Complex.conj_eq_iff_im.2 him
  · intro h c hc
    exact im_eq_zero_of_mem_expandedRoots h hc

/-- Roots that come with their conjugates make a polynomial of their number as the degree. -/
theorem degree?_ofRoots (h : (roots.map Cplx.conj).Perm roots) :
    (ofRoots roots).degree? = some roots.length := by
  rw [degree?_of_ne_zero (monic_ofRoots h).ne_zero, ← natDegree_toPolynomial, natDegree_ofRoots h]

/-- No zero ends the coefficients of conjugate roots, so all of them are kept. -/
theorem coeffs_ofRoots (h : (roots.map Cplx.conj).Perm roots) :
    (ofRoots roots).coeffs.map Cplx.ofReal = expandedRoots roots := by
  have hlength : (ofRoots roots).coeffs.length = (expandedRoots roots).length := by
    rw [length_expandedRoots, (degree?_eq_some_iff _ _).1 (degree?_ofRoots h)]
  have hcoeffs : (ofRoots roots).coeffs = (expandedRoots roots).map (·.re) := by
    apply eq_of_polynomialOf_eq
    · rw [hlength, List.length_map]
    · exact polynomialOf_dropTrailingZeros _
  rw [hcoeffs, List.map_map]
  refine (List.map_congr_left fun c hc => ?_).trans (List.map_id _)
  exact Cplx.ext rfl (im_eq_zero_of_mem_expandedRoots h hc).symm

/-- The polynomial does not depend on the order of the roots. -/
theorem ofRoots_perm {roots' : List (Cplx ℝ)} (h : roots'.Perm roots) :
    ofRoots roots' = ofRoots roots := by
  apply toPolynomial_injective
  ext n
  rw [coeff_ofRoots, coeff_ofRoots, rootProduct_perm h]

/-- **Conjugate roots expand without a loss.** The expansion has no imaginary parts just if the
roots are their own conjugates, in any order and each as often as its conjugate. Then its
coefficients are those of the polynomial, which is monic, has one degree for every root and at every
complex number the value of the product. In no case does the order of the roots count. -/
theorem conjugate_roots_expand (roots : List (Cplx ℝ)) :
    ((∀ c ∈ expandedRoots roots, c.im = 0) ↔ (roots.map Cplx.conj).Perm roots) ∧
    (∀ roots', roots'.Perm roots → ofRoots roots' = ofRoots roots) ∧
    ((roots.map Cplx.conj).Perm roots →
      (ofRoots roots).coeffs.map Cplx.ofReal = expandedRoots roots ∧
      (ofRoots roots).degree? = some roots.length ∧ (ofRoots roots).coeff roots.length = 1 ∧
      ∀ z : Cplx ℝ, ((ofRoots roots).evaluateCplx z).toComplex =
        (roots.map fun r => z.toComplex - r.toComplex).prod) := by
  refine ⟨forall_im_eq_zero_iff, fun roots' => ofRoots_perm, fun h => ?_⟩
  refine ⟨coeffs_ofRoots h, degree?_ofRoots h, ?_, fun z => ?_⟩
  · rw [← coeff_toPolynomial, ← natDegree_ofRoots h]
    exact monic_ofRoots h
  · rw [toComplex_evaluateCplx, aeval_ofRoots h]

/-- A double pair around a real root, no root beside its conjugate. At the imaginary unit the
product is `(1 - i) ^ 2 * (i - 3) * (1 + 3 i) ^ 2`. -/
theorem conjugate_roots_expand_interleaved :
    let roots : List (Cplx ℝ) := [⟨-1, 2⟩, ⟨-1, 2⟩, ⟨3, 0⟩, ⟨-1, -2⟩, ⟨-1, -2⟩]
    (roots.map Cplx.conj).Perm roots ∧ (∀ c ∈ expandedRoots roots, c.im = 0) ∧
      (ofRoots roots).degree? = some 5 ∧
      ((ofRoots roots).evaluateCplx ⟨0, 1⟩).toComplex = ⟨-52, -36⟩ := by
  intro roots
  have hperm : (roots.map Cplx.conj).Perm roots := by
    have hindex : [1, 1, 2, 0, 0].Perm [0, 0, 2, 1, 1] := by decide
    have h := hindex.map fun n => ([⟨-1, 2⟩, ⟨-1, -2⟩, ⟨3, 0⟩] : List (Cplx ℝ)).getD n 0
    simpa [roots, Cplx.conj] using h
  obtain ⟨hreal, -, hvalue⟩ := conjugate_roots_expand roots
  obtain ⟨-, hdegree, -, hproduct⟩ := hvalue hperm
  refine ⟨hperm, hreal.2 hperm, hdegree, (hproduct ⟨0, 1⟩).trans ?_⟩
  apply Complex.ext <;> norm_num [roots, Cplx.toComplex]

end Poly

end SignalCalc
