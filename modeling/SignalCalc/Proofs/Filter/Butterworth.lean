import Mathlib.Analysis.SpecialFunctions.Trigonometric.Basic
import SignalCalc.Proofs.Filter.Stable

/-!
# Poles of Butterworth filters

The poles of a Butterworth filter divide the left half of a circle evenly. Counted from the middle
of that half, their angles lie strictly between minus and plus a right angle, and backwards they are
the opposite ones. So every pole lies to the left of the imaginary axis, and the list of their
conjugates is the list of the poles backwards.

Main statement: `FilterSettings.stableMonic_butterworthDenominator`.
-/

namespace SignalCalc

namespace FilterSettings

/-- The poles that a Butterworth denominator is expanded from. -/
noncomputable def butterworthPoles (n : Nat) (omega : ℝ) : List (Cplx ℝ) :=
  (List.range n).map fun k => Cplx.ofPolar omega (poleAngle n (k + 1))

/-- The angle of a pole from the middle of the left half of the circle. The poles are counted from
zero. -/
noncomputable def poleOffset (n k : Nat) : ℝ := poleAngle n (k + 1) - Real.pi

variable {n k : Nat}

/-- The poles lie evenly around the middle of the left half circle. -/
theorem poleOffset_eq (hk : k < n) :
    poleOffset n k = Real.pi / 2 * ((2 * k + 1 - n) / n) := by
  have hn : (n : ℝ) ≠ 0 := Nat.cast_ne_zero.2 (Nat.ne_zero_of_lt hk)
  have hpi : (Elementary.pi : ℝ) = Real.pi := rfl
  rw [poleOffset, poleAngle, hpi, Nat.cast_add, Nat.cast_one]
  norm_num
  field_simp
  ring

/-- No pole is as far as a quarter turn from the middle. -/
theorem abs_poleOffset_lt (hk : k < n) : |poleOffset n k| < Real.pi / 2 := by
  have hn : (0 : ℝ) < n := Nat.cast_pos.2 (Nat.zero_lt_of_lt hk)
  have hle : (k : ℝ) + 1 ≤ n := by exact_mod_cast hk
  have h0 : (0 : ℝ) ≤ k := Nat.cast_nonneg k
  have ht : |(2 * k + 1 - n : ℝ) / n| < 1 := by
    rw [abs_div, abs_of_pos hn, div_lt_one hn, abs_lt]
    constructor <;> linarith
  rw [poleOffset_eq hk, abs_mul, abs_of_pos Real.pi_div_two_pos]
  exact mul_lt_of_lt_one_right Real.pi_div_two_pos ht

/-- Backwards the poles have the opposite angles. -/
theorem poleOffset_reflect (hk : k < n) : poleOffset n (n - 1 - k) = -poleOffset n k := by
  have hcast : ((n - 1 - k : Nat) : ℝ) = n - 1 - k := by
    rw [Nat.cast_sub (by omega), Nat.cast_sub (by omega), Nat.cast_one]
  rw [poleOffset_eq hk, poleOffset_eq (show n - 1 - k < n by omega), hcast]
  ring

/-- A pole by its angle from the middle. -/
theorem ofPolar_poleAngle (n k : Nat) (omega : ℝ) :
    Cplx.ofPolar omega (poleAngle n (k + 1)) =
      ⟨-(omega * Real.cos (poleOffset n k)), -(omega * Real.sin (poleOffset n k))⟩ := by
  have hcos (x : ℝ) : Elementary.cos x = Real.cos x := rfl
  have hsin (x : ℝ) : Elementary.sin x = Real.sin x := rfl
  have hangle : poleAngle n (k + 1) = poleOffset n k + Real.pi := (sub_add_cancel _ _).symm
  rw [Cplx.ofPolar, hangle, hcos, hsin, Real.cos_add_pi, Real.sin_add_pi, mul_neg, mul_neg]

/-- The poles lie to the left of the imaginary axis. -/
theorem re_neg_of_mem_butterworthPoles {omega : ℝ} (ho : 0 < omega) {r : Cplx ℝ}
    (hr : r ∈ butterworthPoles n omega) : r.re < 0 := by
  obtain ⟨k, hk, rfl⟩ := List.mem_map.1 hr
  have hk := List.mem_range.1 hk
  rw [ofPolar_poleAngle]
  exact neg_neg_of_pos (mul_pos ho (Real.cos_pos_of_mem_Ioo (abs_lt.1 (abs_poleOffset_lt hk))))

/-- The conjugates of the poles are the poles from the last to the first. -/
theorem map_conj_butterworthPoles (n : Nat) (omega : ℝ) :
    (butterworthPoles n omega).map Cplx.conj = (butterworthPoles n omega).reverse := by
  refine List.ext_getElem (by simp) fun k hk _ => ?_
  have hk : k < n := by simpa [butterworthPoles] using hk
  simp only [butterworthPoles, List.getElem_map, List.getElem_reverse, List.getElem_range,
    List.length_map, List.length_range]
  rw [ofPolar_poleAngle, ofPolar_poleAngle, poleOffset_reflect hk, Real.cos_neg, Real.sin_neg,
    mul_neg]
  rfl

/-- The poles come in conjugate pairs. -/
theorem perm_butterworthPoles (n : Nat) (omega : ℝ) :
    ((butterworthPoles n omega).map Cplx.conj).Perm (butterworthPoles n omega) := by
  rw [map_conj_butterworthPoles]
  exact List.reverse_perm _

/-- The poles lie to the left and come in conjugate pairs. -/
theorem stableMonic_butterworthDenominator (n : Nat) {omega : ℝ} (ho : 0 < omega) :
    StableMonic (butterworthDenominator n omega).toPolynomial n := by
  have h := StableMonic.ofRoots (perm_butterworthPoles n omega) fun _ hr =>
    re_neg_of_mem_butterworthPoles ho hr
  rw [butterworthPoles, List.length_map, List.length_range] at h
  exact h

end FilterSettings

end SignalCalc
