import SignalCalc.Cplx
import SignalCalc.Proofs.Exact

/-!
# Complex numbers in exact arithmetic

Over the real numbers a `Cplx` is a complex number (`Cplx.toComplex`), and its operations are those
of the complex numbers.
-/

namespace SignalCalc.Cplx

/-- The complex number with the same parts. -/
def toComplex (z : Cplx ℝ) : ℂ := ⟨z.re, z.im⟩

@[simp] theorem toComplex_zero : (0 : Cplx ℝ).toComplex = 0 := rfl

@[simp] theorem toComplex_ofReal (x : ℝ) : (ofReal x).toComplex = x := rfl

@[simp] theorem toComplex_add (z w : Cplx ℝ) : (z + w).toComplex = z.toComplex + w.toComplex := rfl

@[simp] theorem toComplex_sub (z w : Cplx ℝ) : (z - w).toComplex = z.toComplex - w.toComplex := rfl

@[simp] theorem toComplex_mul (z w : Cplx ℝ) : (z * w).toComplex = z.toComplex * w.toComplex := rfl

@[simp] theorem toComplex_addReal (z : Cplx ℝ) (x : ℝ) :
    (z.addReal x).toComplex = z.toComplex + x := by
  apply Complex.ext <;> simp [toComplex, addReal]

@[simp] theorem toComplex_conj (z : Cplx ℝ) :
    z.conj.toComplex = (starRingEnd ℂ) z.toComplex :=
  rfl

@[simp] theorem toComplex_div (z w : Cplx ℝ) : (z / w).toComplex = z.toComplex / w.toComplex := by
  apply Complex.ext
  · rw [Complex.div_re, ← add_div]
    rfl
  · rw [Complex.div_im, ← sub_div]
    rfl

/-- A complex number is determined by the two real ones. -/
theorem toComplex_injective : Function.Injective toComplex := by
  intro z w h
  exact Cplx.ext (congrArg Complex.re h) (congrArg Complex.im h)

/-- The polar form is a magnitude times a turn. -/
theorem toComplex_ofPolar (r angle : ℝ) :
    (ofPolar r angle).toComplex = r * Complex.exp (angle * Complex.I) := by
  have hcos : Elementary.cos angle = (Complex.cos angle).re := rfl
  have hsin : Elementary.sin angle = (Complex.sin angle).re := rfl
  rw [Complex.exp_mul_I]
  apply Complex.ext <;> simp [ofPolar, toComplex, hcos, hsin]

/-- The sum of a list is the sum of the complex numbers. -/
theorem toComplex_sum (zs : List (Cplx ℝ)) :
    (Cplx.sum zs).toComplex = (zs.map toComplex).sum := by
  have h (a : Cplx ℝ) :
      (zs.foldl (· + ·) a).toComplex = a.toComplex + (zs.map toComplex).sum := by
    induction zs generalizing a with
    | nil => simp
    | cons z zs ih =>
      rw [List.foldl_cons, ih, List.map_cons, List.sum_cons, toComplex_add, add_assoc]
  rw [Cplx.sum, h, toComplex_zero, zero_add]

/-- The squared magnitude is the squared norm. -/
theorem normSq_eq (z : Cplx ℝ) : z.normSq = Complex.normSq z.toComplex :=
  rfl

/-- The magnitude is the norm. -/
theorem norm_eq (z : Cplx ℝ) : z.norm = ‖z.toComplex‖ := by
  have hhypot : z.norm = Real.sqrt (z.re ^ 2 + z.im ^ 2) := rfl
  rw [hhypot, Complex.norm_eq_sqrt_sq_add_sq]
  rfl

end SignalCalc.Cplx
