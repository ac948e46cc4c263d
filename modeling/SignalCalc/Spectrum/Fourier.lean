import SignalCalc.Cplx

/-!
# The discrete Fourier transform

`Fourier.sumAt` is the transform by its defining sum. `Fourier.transform` halves the input while its
length is even and takes the defining sum at what is left, so it is fast at powers of two and right
at every length. Neither scales its result.
-/

namespace SignalCalc.Fourier

/-- The entries at even indices. -/
def evens {β : Type} : List β → List β
  | [] => []
  | [a] => [a]
  | a :: _ :: rest => a :: evens rest

/-- The entries at odd indices. -/
def odds {β : Type} : List β → List β
  | [] => []
  | _ :: rest => evens rest

/-- Half of the entries stand at even indices, rounded up. -/
theorem length_evens {β : Type} : ∀ xs : List β, (evens xs).length = (xs.length + 1) / 2
  | [] => by simp [evens]
  | [_] => by simp [evens]
  | _ :: _ :: rest => by
    simp only [evens, List.length_cons, length_evens rest]
    omega

/-- Half of the entries stand at odd indices, rounded down. -/
theorem length_odds {β : Type} (xs : List β) : (odds xs).length = xs.length / 2 := by
  cases xs with
  | nil => simp [odds]
  | cons a rest => simp [odds, length_evens]

variable {α : Type} [Zero α] [One α] [Neg α] [Add α] [Sub α] [Mul α] [Div α] [NatCast α]
  [OfScientific α] [Elementary α]

/-- The root of unity `k` steps of the `n`-th part of a turn clockwise from one. -/
def root (n k : Nat) : Cplx α :=
  Cplx.ofPolar 1 (-(2.0 * Elementary.pi * ((k % n : Nat) : α) / (n : α)))

/-- A number turned clockwise by `k` steps of the `n`-th part of a turn. Quarter turns only exchange
the parts and change signs, so they are exact and keep an undefined part to itself. -/
def turn (n k : Nat) (root z : Cplx α) : Cplx α :=
  let steps := k % n
  if steps = 0 then z
  else if 4 * steps = n then ⟨z.im, -z.re⟩
  else if 2 * steps = n then ⟨-z.re, -z.im⟩
  else if 4 * steps = 3 * n then ⟨-z.im, z.re⟩
  else root * z

/-- Bin `k` of the transform by its defining sum. -/
def sumAt (xs : List (Cplx α)) (k : Nat) : Cplx α :=
  let n := xs.length
  Cplx.sum (xs.zipIdx.map fun (x, j) => turn n (j * k) (root n (j * k)) x)

/-- The same sum for all bins, with the roots of unity from a table. -/
def sums (xs : List (Cplx α)) : List (Cplx α) :=
  let n := xs.length
  let table : Array (Cplx α) := Array.ofFn fun k : Fin n => root n k
  (List.range n).map fun k =>
    Cplx.sum (xs.zipIdx.map fun (x, j) => turn n (j * k) (table.getD (j * k % n) 0) x)

/-- The transform of a list of even length `n` from those of its entries at even and at odd
indices. -/
def merge (n : Nat) (even odd : List (Cplx α)) : List (Cplx α) :=
  let turned := odd.zipIdx.map fun (z, k) => turn n k (root n k) z
  List.zipWith (· + ·) even turned ++ List.zipWith (· - ·) even turned

/-- The transform of a list of complex numbers. -/
def transform (xs : List (Cplx α)) : List (Cplx α) :=
  if _h : xs.length ≠ 0 ∧ xs.length % 2 = 0 then
    merge xs.length (transform (evens xs)) (transform (odds xs))
  else sums xs
termination_by xs.length
decreasing_by
  · rw [length_evens]; omega
  · rw [length_odds]; omega

/-- A transform has as many bins as its input has entries. -/
@[simp] theorem length_transform (xs : List (Cplx α)) : (transform xs).length = xs.length := by
  fun_induction transform xs with
  | case1 xs h ihe iho =>
    simp only [merge, List.length_append, List.length_zipWith, List.length_map, List.length_zipIdx,
      ihe, iho, length_evens, length_odds]
    omega
  | case2 xs h => simp [sums]

end SignalCalc.Fourier
