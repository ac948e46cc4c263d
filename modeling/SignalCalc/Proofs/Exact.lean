import Mathlib.Algebra.Order.Floor.Semiring
import Mathlib.Analysis.SpecialFunctions.Complex.Arg
import Mathlib.Analysis.SpecialFunctions.Log.Base
import Mathlib.Analysis.SpecialFunctions.Pow.Real
import Mathlib.Analysis.SpecialFunctions.Trigonometric.Arctan
import SignalCalc.Elementary

/-!
# Exact arithmetic

Statements about the library without rounding are about an ordered field. There the operations of
the core classes are those of the field; what is asked of `Elementary` is `ExactElementary`: the
magnitude and the roundings are the true ones, and a power with a natural exponent is the repeated
product. All other functions may be anything. The real numbers with the real functions are exact.
-/

namespace SignalCalc

/-- The magnitude, the roundings and the natural powers are exact. -/
class ExactElementary (α : Type) [Field α] [LinearOrder α] [FloorRing α] [Elementary α] :
    Prop where
  abs_eq (x : α) : Elementary.abs x = |x|
  floor_eq (x : α) : Elementary.floor x = (⌊x⌋ : ℤ)
  ceil_eq (x : α) : Elementary.ceil x = (⌈x⌉ : ℤ)
  roundToNat_eq (x : α) : Elementary.roundToNat x = ⌊x + 1 / 2⌋₊
  pow_natCast (x : α) (n : ℕ) : Elementary.pow x (n : α) = x ^ n

/-- The real functions. -/
noncomputable instance : Elementary ℝ where
  pi := Real.pi
  abs x := |x|
  floor x := (⌊x⌋ : ℤ)
  ceil x := (⌈x⌉ : ℤ)
  roundToNat x := (round x).toNat
  sqrt := Real.sqrt
  exp := Real.exp
  ln := Real.log
  log10 := Real.logb 10
  sin := Real.sin
  cos := Real.cos
  tan := Real.tan
  asin := Real.arcsin
  acos := Real.arccos
  atan := Real.arctan
  atan2 y x := Complex.arg ⟨x, y⟩
  hypot x y := Real.sqrt (x ^ 2 + y ^ 2)
  pow x y := x ^ y

instance : ExactElementary ℝ where
  abs_eq _ := rfl
  floor_eq _ := rfl
  ceil_eq _ := rfl
  roundToNat_eq x := by
    show (round x).toNat = _
    rw [round_eq, Int.floor_toNat]
  pow_natCast := Real.rpow_natCast

section

variable {α : Type} [Field α]

/-- Without rounding the order of additions does not matter. -/
theorem total_eq_sum (xs : List α) : total xs = xs.sum := by
  have h (a : α) : xs.foldl (· + ·) a = a + xs.sum := by
    induction xs generalizing a with
    | nil => simp
    | cons x xs ih => rw [List.foldl_cons, ih, List.sum_cons, add_assoc]
  rw [total, h, neg_zero, zero_add]

/-- The rounding error as a fraction. -/
theorem roundingError_eq : (roundingError : α) = 1 / 2 ^ 52 := by
  rw [roundingError, show Nat.pow 2 52 = 2 ^ 52 from rfl, Nat.cast_pow, Nat.cast_ofNat]

/-- Repeated squaring multiplies up the power. -/
theorem powNatFrom_eq (r x : α) (m : ℕ) : powNatFrom r x m = r * x ^ m := by
  induction m using Nat.strong_induction_on generalizing r x with
  | _ m ih =>
    have hm : m = m % 2 + 2 * (m / 2) := (Nat.mod_add_div m 2).symm
    have hr : (if m % 2 = 1 then r * x else r) = r * x ^ (m % 2) := by
      rcases Nat.mod_two_eq_zero_or_one m with h | h <;> simp [h]
    rw [powNatFrom]
    simp only [hr]
    split
    · next h =>
      have hm : m % 2 = m := by omega
      rw [hm]
    · rw [ih (m / 2) (by omega), mul_assoc, ← pow_two, ← pow_mul, ← pow_add, ← hm]

/-- Repeated squaring gives the power. -/
theorem powInt_natCast (x : α) (n : ℕ) : powInt x n = x ^ n := by
  have h : ¬(n : ℤ) < 0 := by omega
  simp only [powInt, if_neg h, Int.natAbs_natCast, powNatFrom_eq, one_mul]

variable [LinearOrder α]

/-- In a field every number is finite. -/
@[simp] theorem isFinite_eq_true (x : α) : isFinite x = true := by
  simp [isFinite]

variable [IsStrictOrderedRing α] [FloorRing α] [Elementary α] [ExactElementary α]

/-- A whole number is rounded to itself. -/
theorem roundToNat_natCast (n : ℕ) : Elementary.roundToNat (n : α) = n := by
  rw [ExactElementary.roundToNat_eq, Nat.floor_eq_iff (by positivity)]
  constructor <;> norm_num

/-- A number that is not negative and has no fraction is the natural number that it is rounded to.
-/
theorem natCast_roundToNat {x : α} (h : 0 ≤ x) (hf : x - Elementary.floor x = 0) :
    (Elementary.roundToNat x : α) = x := by
  rw [ExactElementary.floor_eq, sub_eq_zero] at hf
  obtain ⟨n, hn⟩ : ∃ n : ℕ, ⌊x⌋ = n := Int.eq_ofNat_of_zero_le (Int.floor_nonneg.2 h)
  rw [hn, Int.cast_natCast] at hf
  rw [hf, roundToNat_natCast]

end

end SignalCalc
