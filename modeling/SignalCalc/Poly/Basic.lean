import SignalCalc.Cplx

/-!
# Polynomials in `s`

A `Poly α` is the list of its coefficients by ascending powers, with no zero at the end. So the zero
polynomial has no coefficients, the degree is read off the length, and polynomials with the same
coefficient at every power are equal.

Main definitions: `Poly.ofList`, the operators, `Poly.scale`, `Poly.pow`, `Poly.evaluate` and
`Poly.ofRoots`. Every one of them fixes the order of its additions, since over `Float` that order
can be seen.
-/

namespace SignalCalc

/-- The last entry of a list, if there is one, is no zero. -/
def NoTrailingZero {α : Type} [Zero α] [BEq α] (cs : List α) : Prop :=
  ∀ c, cs.getLast? = some c → (c == 0) = false

/-- A list without the zeros at its end. -/
def dropTrailingZeros {α : Type} [Zero α] [BEq α] : List α → List α
  | [] => []
  | c :: cs =>
    match dropTrailingZeros cs with
    | [] => if c == 0 then [] else [c]
    | d :: ds => c :: d :: ds

/-- What is left after trailing zeros are dropped has none. -/
theorem noTrailingZero_dropTrailingZeros {α : Type} [Zero α] [BEq α] (cs : List α) :
    NoTrailingZero (dropTrailingZeros cs) := by
  induction cs with
  | nil => simp [dropTrailingZeros, NoTrailingZero]
  | cons c cs ih =>
    unfold dropTrailingZeros
    split
    · split
      · simp [NoTrailingZero]
      · simp_all [NoTrailingZero]
    · next d ds h => rw [h] at ih; simpa [NoTrailingZero, List.getLast?_cons_cons] using ih

/-- A polynomial by its coefficients, ascending by power. -/
@[ext] structure Poly (α : Type) [Zero α] [BEq α] where
  coeffs : List α
  noTrailingZero : NoTrailingZero coeffs

namespace Poly

/-- The highest degree that expressions and filter design build. -/
def maxDegree : Nat := 128

section Basic

variable {α : Type} [Zero α] [BEq α]

/-- The polynomial with the given coefficients, zeros at the end dropped. -/
def ofList (cs : List α) : Poly α := ⟨dropTrailingZeros cs, noTrailingZero_dropTrailingZeros cs⟩

instance : Zero (Poly α) := ⟨⟨[], by simp [NoTrailingZero]⟩⟩

instance : Inhabited (Poly α) := ⟨0⟩

/-- The polynomial that is the same number everywhere. -/
def const (c : α) : Poly α := ofList [c]

/-- The coefficient of a power. -/
def coeff (p : Poly α) (n : Nat) : α := p.coeffs.getD n 0

/-- The highest power, none for the zero polynomial. -/
def degree? (p : Poly α) : Option Nat :=
  match p.coeffs with
  | [] => none
  | _ :: cs => some cs.length

/-- The degree, counted as zero for the zero polynomial. -/
def natDegree (p : Poly α) : Nat := p.degree?.getD 0

def isZero (p : Poly α) : Bool := p.coeffs.isEmpty

/-- The number that the polynomial is everywhere, if it is one. -/
def const? (p : Poly α) : Option α :=
  match p.coeffs with
  | [] => some 0
  | [c] => some c
  | _ => none

/-- The power `s ^ n`. -/
def monomial [One α] (n : Nat) : Poly α := ofList (List.replicate n 0 ++ [1])

/-- The variable `s`. -/
def s [One α] : Poly α := ofList [0, 1]

@[simp] theorem coeffs_zero : (0 : Poly α).coeffs = [] := rfl

@[simp] theorem coeffs_ofList (cs : List α) : (ofList cs).coeffs = dropTrailingZeros cs := rfl

end Basic

/-! ## Arithmetic -/

section Arithmetic

variable {α : Type} [Zero α] [Add α]

/-- Sums power by power. A power that only one list has is added to zero. -/
def addLists : List α → List α → List α
  | as, [] => as.map (· + 0)
  | [], bs => bs.map (0 + ·)
  | a :: as, b :: bs => (a + b) :: addLists as bs

/-- Adds the multiples `a * b` of the entries of a list to the sums at the same places. -/
def addMultiples [Mul α] (a : α) : List α → List α → List α
  | sum :: sums, b :: bs => (sum + a * b) :: addMultiples a sums bs
  | sums, _ => sums

/-- Products power by power, added to the given sums. The first factor is taken from its constant
coefficient upwards; once a coefficient has been taken, the lowest sum is complete. -/
def mulLists [Mul α] : List α → List α → List α → List α
  | sums, [], _ => sums
  | sums, a :: as, bs =>
    match addMultiples a sums bs with
    | [] => []
    | sum :: sums => sum :: mulLists sums as bs

variable [BEq α]

instance : Add (Poly α) := ⟨fun p q => ofList (addLists p.coeffs q.coeffs)⟩

instance [Mul α] : Mul (Poly α) :=
  ⟨fun p q =>
    if p.isZero || q.isZero then 0
    else
      let sums := List.replicate (p.coeffs.length + q.coeffs.length - 1) 0
      ofList (mulLists sums p.coeffs q.coeffs)⟩

/-- The polynomial with every coefficient multiplied by a number. -/
def scale [Mul α] (p : Poly α) (factor : α) : Poly α := ofList (p.coeffs.map (· * factor))

instance [One α] [Mul α] [Neg α] : Neg (Poly α) := ⟨fun p => p.scale (-1)⟩

instance [One α] [Mul α] [Neg α] : Sub (Poly α) := ⟨fun p q => p + -q⟩

/-- A natural power, multiplied up from one. -/
def pow [One α] [Mul α] (p : Poly α) : Nat → Poly α
  | 0 => const 1
  | n + 1 => p.pow n * p

end Arithmetic

/-! ## Values and roots -/

section Values

variable {α : Type} [Zero α] [BEq α] [Add α] [Mul α]

/-- The value at a number, by nested multiplication from the highest power down. -/
def evaluate (p : Poly α) (x : α) : α := p.coeffs.foldr (fun c acc => acc * x + c) 0

/-- The value at a complex number. -/
def evaluateCplx [Sub α] (p : Poly α) (z : Cplx α) : Cplx α :=
  p.coeffs.foldr (fun c acc => (acc * z).addReal c) 0

/-- The coefficients of the product with `s - root`: every coefficient moves up one power and takes
`root` times the next one away. The first argument is the coefficient that has just moved up. -/
def timesRoot [Sub α] (root : Cplx α) : Cplx α → List (Cplx α) → List (Cplx α)
  | moved, [] => [moved]
  | moved, c :: cs => (moved - c * root) :: timesRoot root (0 + c) cs

/-- The real parts of the coefficients of the product of `s - root` over the roots. Roots that come
in conjugate pairs leave no imaginary part. -/
def ofRoots [One α] [Sub α] (roots : List (Cplx α)) : Poly α :=
  let expanded := roots.foldl (fun cs root => timesRoot root 0 cs) [Cplx.ofReal 1]
  ofList (expanded.map (·.re))

end Values

end Poly

end SignalCalc
