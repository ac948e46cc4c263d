import SignalCalc.Elementary

/-!
# Complex numbers over any type of numbers

`Cplx α` is a pair of a real and an imaginary part with the textbook operations, each written as one
expression in the parts, so that over `Float` the rounding of every operation is fixed.
-/

namespace SignalCalc

/-- A complex number by its parts. -/
@[ext] structure Cplx (α : Type) where
  re : α
  im : α

namespace Cplx

variable {α : Type}

instance [Zero α] : Zero (Cplx α) := ⟨⟨0, 0⟩⟩

instance [Add α] : Add (Cplx α) := ⟨fun a b => ⟨a.re + b.re, a.im + b.im⟩⟩

instance [Sub α] : Sub (Cplx α) := ⟨fun a b => ⟨a.re - b.re, a.im - b.im⟩⟩

instance [Add α] [Sub α] [Mul α] : Mul (Cplx α) :=
  ⟨fun a b => ⟨a.re * b.re - a.im * b.im, a.re * b.im + a.im * b.re⟩⟩

/-- A real number as a complex one. -/
def ofReal [Zero α] (x : α) : Cplx α := ⟨x, 0⟩

/-- The reflection in the real axis. -/
def conj [Neg α] (a : Cplx α) : Cplx α := ⟨a.re, -a.im⟩

/-- The square of the distance from zero. -/
def normSq [Add α] [Mul α] (a : Cplx α) : α := a.re * a.re + a.im * a.im

/-- A quotient: the product with the conjugate of the divisor, over the divisor's squared norm. -/
instance [Add α] [Sub α] [Mul α] [Div α] : Div (Cplx α) :=
  ⟨fun a b =>
    ⟨(a.re * b.re + a.im * b.im) / b.normSq, (a.im * b.re - a.re * b.im) / b.normSq⟩⟩

/-- A real number added to a complex one. -/
def addReal [Add α] (a : Cplx α) (x : α) : Cplx α := ⟨a.re + x, a.im⟩

/-- A complex number divided by a real one. -/
def divReal [Div α] (a : Cplx α) (x : α) : Cplx α := ⟨a.re / x, a.im / x⟩

/-- The distance from zero. -/
def norm [Elementary α] (a : Cplx α) : α := Elementary.hypot a.re a.im

/-- The angle to the positive real axis. -/
def arg [Elementary α] (a : Cplx α) : α := Elementary.atan2 a.im a.re

/-- The number at a distance and an angle. -/
def ofPolar [Mul α] [Elementary α] (r angle : α) : Cplx α :=
  ⟨r * Elementary.cos angle, r * Elementary.sin angle⟩

/-- The sum of a list from left to right. -/
def sum [Zero α] [Add α] (zs : List (Cplx α)) : Cplx α := zs.foldl (· + ·) 0

section Parts

@[simp] theorem zero_re [Zero α] : (0 : Cplx α).re = 0 := rfl

@[simp] theorem zero_im [Zero α] : (0 : Cplx α).im = 0 := rfl

@[simp] theorem add_re [Add α] (a b : Cplx α) : (a + b).re = a.re + b.re := rfl

@[simp] theorem add_im [Add α] (a b : Cplx α) : (a + b).im = a.im + b.im := rfl

@[simp] theorem sub_re [Sub α] (a b : Cplx α) : (a - b).re = a.re - b.re := rfl

@[simp] theorem sub_im [Sub α] (a b : Cplx α) : (a - b).im = a.im - b.im := rfl

@[simp] theorem mul_re [Add α] [Sub α] [Mul α] (a b : Cplx α) :
    (a * b).re = a.re * b.re - a.im * b.im := rfl

@[simp] theorem mul_im [Add α] [Sub α] [Mul α] (a b : Cplx α) :
    (a * b).im = a.re * b.im + a.im * b.re := rfl

@[simp] theorem conj_re [Neg α] (a : Cplx α) : a.conj.re = a.re := rfl

@[simp] theorem conj_im [Neg α] (a : Cplx α) : a.conj.im = -a.im := rfl

end Parts

end Cplx

end SignalCalc
