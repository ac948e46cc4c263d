import Mathlib.Algebra.Polynomial.Roots
import Mathlib.Data.List.GetD
import Mathlib.LinearAlgebra.Matrix.DotProduct
import Mathlib.LinearAlgebra.Matrix.SemiringInverse
import Mathlib.Tactic.Linarith
import Mathlib.Tactic.Positivity
import SignalCalc.Fit.Polynomial
import SignalCalc.Proofs.Exact
import SignalCalc.Proofs.Outcome
import SignalCalc.Proofs.Poly.Ring

/-!
# Fits by least squares

The normal equations of a fit have the matrix `Vᵀ V` and the right-hand side `Vᵀ y`, where the rows
of `V` are the powers of the positions. They can be solved, however the positions repeat: the
pseudo-inverse of `Vᵀ V` does it (`gram_mul_mul_transpose`), because what it leaves of `Vᵀ` has no
length. What solves them leaves residuals at right angles to all polynomials, so no other polynomial
comes nearer (`residual_le`).

Main statements: `gram_mul_mul_transpose`, `residual_le`, `fit_is_least_squares`.
-/

namespace SignalCalc

open Matrix Polynomial

/-! ## The pseudo-inverse and the normal equations -/

section Gram

variable {α : Type} [Field α] {m n : Type} [Fintype m] [Fintype n]

/-- The pseudo-inverse of a matrix, by its four equations. -/
structure IsPseudoInverse (A : Matrix m n α) (B : Matrix n m α) : Prop where
  mul_mul_self : A * B * A = A
  self_mul_mul : B * A * B = B
  transpose_mul : (A * B)ᵀ = A * B
  transpose_self_mul : (B * A)ᵀ = B * A

/-- The inverse of a matrix is its pseudo-inverse. -/
theorem isPseudoInverse_of_mul_eq_one [DecidableEq n] {A B : Matrix n n α} (h : A * B = 1) :
    IsPseudoInverse A B := by
  have h' : B * A = 1 := mul_eq_one_comm.1 h
  constructor <;> simp [h, h']

variable [LinearOrder α] [IsStrictOrderedRing α]

omit [Fintype n] in
/-- A matrix whose rows have no length is zero. -/
theorem eq_zero_of_mul_transpose {F : Matrix n m α} (h : F * Fᵀ = 0) : F = 0 := by
  ext i j
  have hi : ∑ k, F i k * F i k = 0 := congrFun (congrFun h i) i
  exact mul_self_eq_zero.1
    ((Finset.sum_eq_zero_iff_of_nonneg fun k _ => mul_self_nonneg _).1 hi j (Finset.mem_univ j))

/-- The pseudo-inverse of `Vᵀ V` solves the normal equations for every right-hand side that they can
have. -/
theorem gram_mul_mul_transpose {V : Matrix m n α} {B : Matrix n n α}
    (h : IsPseudoInverse (Vᵀ * V) B) : Vᵀ * V * B * Vᵀ = Vᵀ := by
  classical
  refine sub_eq_zero.1 (eq_zero_of_mul_transpose ?_)
  have hF : Vᵀ * V * B * Vᵀ - Vᵀ = (Vᵀ * V * B - 1) * Vᵀ := by
    rw [Matrix.sub_mul, Matrix.one_mul]
  rw [hF, transpose_mul, transpose_transpose, ← Matrix.mul_assoc, Matrix.mul_assoc _ Vᵀ V,
    Matrix.sub_mul, Matrix.one_mul, h.mul_mul_self, sub_self, Matrix.zero_mul]

/-- What solves the normal equations leaves the least residuals. -/
theorem residual_le {V : Matrix m n α} {y : m → α} {c : n → α}
    (h : (Vᵀ * V) *ᵥ c = Vᵀ *ᵥ y) (d : n → α) :
    (y - V *ᵥ c) ⬝ᵥ (y - V *ᵥ c) ≤ (y - V *ᵥ d) ⬝ᵥ (y - V *ᵥ d) := by
  have horth : (y - V *ᵥ c) ⬝ᵥ (V *ᵥ (c - d)) = 0 := by
    rw [dotProduct_mulVec, ← mulVec_transpose, mulVec_sub, mulVec_mulVec, h, sub_self,
      zero_dotProduct]
  have hsplit : y - V *ᵥ d = (y - V *ᵥ c) + V *ᵥ (c - d) := by
    rw [mulVec_sub]
    abel
  rw [hsplit, add_dotProduct, dotProduct_add, dotProduct_add, horth, dotProduct_comm (V *ᵥ _),
    horth]
  have hnonneg : 0 ≤ (V *ᵥ (c - d)) ⬝ᵥ (V *ᵥ (c - d)) :=
    Finset.sum_nonneg fun i _ => mul_self_nonneg _
  linarith

end Gram

/-! ## Lists as vectors and matrices -/

section Lists

variable {α : Type}

/-- The entries of a list as a vector. -/
def vectorOf [Zero α] (n : Nat) (xs : List α) : Fin n → α := fun i => xs.getD i 0

/-- The square matrix with the given columns. -/
def squareOf [Zero α] (n : Nat) (columns : List (List α)) : Matrix (Fin n) (Fin n) α :=
  Matrix.of fun i j => (columns.getD j []).getD i 0

/-- A way to solve equations applies the pseudo-inverse of a square matrix, given by its columns. -/
def AppliesPseudoInverse [Field α] (solve : List (List α) → List α → List α)
    (columns : List (List α)) : Prop :=
  ∃ B, IsPseudoInverse (squareOf columns.length columns) B ∧
    ∀ rhs, rhs.length = columns.length → (solve columns rhs).length = columns.length ∧
      vectorOf columns.length (solve columns rhs) = B *ᵥ vectorOf columns.length rhs

variable [CommRing α]

/-- Inside a list the default of an entry does not matter, so the function can be taken first. -/
theorem getD_map_of_lt {β γ : Type} (f : β → γ) {xs : List β} {j : Nat} (h : j < xs.length)
    (d : γ) (d' : β) : (xs.map f).getD j d = f (xs.getD j d') := by
  rw [List.getD_eq_getElem _ _ (by rwa [List.length_map]), List.getElem_map,
    List.getD_eq_getElem _ _ h]

/-- A product of two columns is the sum over the items that they are made of. -/
theorem dot_map {β : Type} (xs : List β) (f g : β → α) :
    dot (xs.map f) (xs.map g) = ∑ i : Fin xs.length, f (xs.get i) * g (xs.get i) := by
  rw [dot, ← List.sum_eq_foldl, List.zipWith_map, List.zipWith_self]
  exact (Fin.sum_univ_fun_getElem xs fun x => f x * g x).symm

end Lists

/-! ## Multiples of the identity

Their axes are never turned, so what is solved can be read off. -/

/-- Axes at right angles stay as they are, however often they are swept. -/
theorem Axis.settle_of_sweep {axes : List (Axis ℝ)} (h : Axis.sweep axes = (false, axes))
    (n : Nat) : Axis.settle n axes = axes := by
  cases n <;> simp [Axis.settle, h]

/-- A multiple of the unit matrix is solved by a division of each entry. -/
theorem pseudoSolve_scalar {c : ℝ} (hc : 0 < c) (a b : ℝ) :
    pseudoSolve [[c, 0], [0, c]] [a, b] = [a / c, b / c] := by
  have hlargest : largestEntry [[c, 0], [0, c]] = c := by
    simp [largestEntry, Elementary.abs, hc, abs_of_pos hc, not_lt_of_gt hc]
  have haxes : coordinateAxes [[(1 : ℝ), 0], [0, 1]] =
      [⟨[1, 0], [1, 0]⟩, ⟨[0, 1], [0, 1]⟩] := by
    simp [coordinateAxes, List.range_succ]
  have hsweep : Axis.sweep [⟨[(1 : ℝ), 0], [1, 0]⟩, ⟨[0, 1], [0, 1]⟩] =
      (false, [⟨[1, 0], [1, 0]⟩, ⟨[0, 1], [0, 1]⟩]) := by
    simp [Axis.sweep, Axis.turnAgainst, Axis.turn, dot, Elementary.abs, Elementary.sqrt,
      roundingError]
  simp only [pseudoSolve, hlargest, List.map_cons, List.map_nil, div_self hc.ne', zero_div, haxes,
    Axis.settle_of_sweep hsweep]
  simp [dot, Elementary.sqrt, roundingError, combination]
  norm_num [combination]

/-- Such a division is what the pseudo-inverse does. -/
theorem appliesPseudoInverse_scalar {c : ℝ} (hc : 0 < c) :
    AppliesPseudoInverse pseudoSolve [[c, 0], [0, c]] := by
  have hsquare : squareOf 2 [[c, 0], [0, c]] = scalar (Fin 2) c := by
    ext i j
    fin_cases i <;> fin_cases j <;> rfl
  have hinverse : squareOf 2 [[c, 0], [0, c]] * scalar (Fin 2) c⁻¹ = 1 := by
    rw [hsquare, ← map_mul, mul_inv_cancel₀ hc.ne', map_one]
  refine ⟨scalar (Fin 2) c⁻¹, isPseudoInverse_of_mul_eq_one hinverse, fun rhs hrhs => ?_⟩
  obtain ⟨a, b, rfl⟩ := List.length_eq_two.1 hrhs
  rw [pseudoSolve_scalar hc]
  refine ⟨rfl, ?_⟩
  ext i
  fin_cases i <;> simp [vectorOf, Matrix.mulVec, div_eq_inv_mul]

/-! ## The equations of a fit -/

namespace PolynomialFit

section Equations

variable {α : Type} [Field α] (s : Series α) (order : Nat)

/-- The powers of the positions of a series, one row for each sample. -/
def powers : Matrix (Fin s.samples.length) (Fin (order + 1)) α :=
  Matrix.of fun i j => (s.samples.get i).x ^ (j : Nat)

/-- The values of a series. -/
def values : Fin s.samples.length → α := fun i => (s.samples.get i).y

/-- The column of a power has the powers of the positions. -/
theorem getD_powerColumns (j : Fin (order + 1)) :
    (powerColumns s.xs order).getD j [] = s.samples.map fun p => p.x ^ (j : Nat) := by
  rw [powerColumns, List.getD_eq_getElem?_getD, List.getElem?_map,
    List.getElem?_range j.isLt, Option.map_some, Option.getD_some, Series.xs, List.map_map]
  exact List.map_congr_left fun p _ => powInt_natCast p.x j

/-- The matrix of the normal equations is the product of the powers with their transpose. -/
theorem squareOf_normalMatrix :
    squareOf (order + 1) (normalMatrix (powerColumns s.xs order)) =
      (powers s order)ᵀ * powers s order := by
  ext i j
  have hlt (k : Fin (order + 1)) : (k : Nat) < (powerColumns s.xs order).length := by
    rw [length_powerColumns]
    exact k.isLt
  show ((normalMatrix (powerColumns s.xs order)).getD j []).getD i 0 = _
  rw [normalMatrix, getD_map_of_lt _ (hlt j) [] [], getD_map_of_lt _ (hlt i) 0 [],
    getD_powerColumns, getD_powerColumns, dot_map]
  rfl

/-- The right-hand side of the normal equations is the product of the powers with the values. -/
theorem vectorOf_normalRhs :
    vectorOf (order + 1) (normalRhs (powerColumns s.xs order) s.ys) =
      (powers s order)ᵀ *ᵥ values s := by
  ext i
  have hlt : (i : Nat) < (powerColumns s.xs order).length := by
    rw [length_powerColumns]
    exact i.isLt
  show (normalRhs (powerColumns s.xs order) s.ys).getD i 0 = _
  rw [normalRhs, getD_map_of_lt _ hlt 0 [], getD_powerColumns, Series.ys, dot_map]
  rfl

/-- The rows applied to coefficients give the values of the polynomial at the positions. -/
theorem powers_mulVec {q : α[X]} (hq : q.natDegree ≤ order) :
    (powers s order *ᵥ fun j => q.coeff j) = fun i => q.eval (s.samples.get i).x := by
  ext i
  rw [eval_eq_sum_range' (Nat.lt_succ_of_le hq), ← Fin.sum_univ_eq_sum_range
    (fun j => q.coeff j * (s.samples.get i).x ^ j)]
  show ∑ j : Fin (order + 1), (s.samples.get i).x ^ (j : Nat) * q.coeff j = _
  exact Finset.sum_congr rfl fun j _ => mul_comm _ _

variable [LinearOrder α] [IsStrictOrderedRing α]

/-- The pseudo-inverse gives as many coefficients as there are powers, and they solve the normal
equations. -/
theorem solves_of_appliesPseudoInverse {solve : List (List α) → List α → List α}
    (hsolve : AppliesPseudoInverse solve (normalMatrix (powerColumns s.xs order))) :
    ∃ cs, solve (normalMatrix (powerColumns s.xs order))
        (normalRhs (powerColumns s.xs order) s.ys) = cs ∧
      cs.length = order + 1 ∧
      ((powers s order)ᵀ * powers s order) *ᵥ vectorOf (order + 1) cs =
        (powers s order)ᵀ *ᵥ values s := by
  have hm : (normalMatrix (powerColumns s.xs order)).length = order + 1 := by
    rw [length_normalMatrix, length_powerColumns]
  obtain ⟨B, hB, happly⟩ := hsolve
  obtain ⟨hlength, hvector⟩ := happly (normalRhs (powerColumns s.xs order) s.ys) (by
    rw [length_normalRhs, length_normalMatrix])
  generalize (normalMatrix (powerColumns s.xs order)).length = n at *
  subst hm
  rw [squareOf_normalMatrix] at hB
  refine ⟨_, rfl, hlength, ?_⟩
  rw [hvector, vectorOf_normalRhs, mulVec_mulVec, mulVec_mulVec, gram_mul_mul_transpose hB]

end Equations

/-! ## Residuals -/

section Residuals

variable {α : Type} [Field α] (s : Series α)

/-- The sum of the squared residuals that a function leaves of a series. -/
def squaredResiduals (f : α → α) : α := (s.samples.map fun p => (p.y - f p.x) ^ 2).sum

/-- The residuals of a fit are those of its polynomial. -/
theorem residualSum_eq (cs : List α) :
    residualSum cs s = squaredResiduals s fun x => (polynomialOf cs).eval x := by
  simp only [eval_polynomialOf, squaredResiduals, pow_two, List.sum_eq_foldl, List.foldl_map]
  rfl

/-- The spread of the values is the residuals of their mean. -/
theorem spread_eq [LinearOrder α] :
    spread s = squaredResiduals s fun _ => s.meanY?.getD 0 := by
  simp only [squaredResiduals, pow_two, List.sum_eq_foldl, List.foldl_map]
  rfl

/-- The residuals of a polynomial are the squared length of what the powers leave of the values. -/
theorem squaredResiduals_eq_dotProduct {order : Nat} {q : α[X]} (hq : q.natDegree ≤ order) :
    squaredResiduals s (fun x => q.eval x) =
      (values s - powers s order *ᵥ fun j => q.coeff j) ⬝ᵥ
        (values s - powers s order *ᵥ fun j => q.coeff j) := by
  rw [powers_mulVec s order hq, squaredResiduals,
    ← Fin.sum_univ_fun_getElem s.samples fun p => (p.y - q.eval p.x) ^ 2]
  exact Finset.sum_congr rfl fun i _ => pow_two _

/-- A function that goes through all samples has no residuals. -/
theorem squaredResiduals_eq_zero {f : α → α} (h : ∀ p ∈ s.samples, p.y = f p.x) :
    squaredResiduals s f = 0 := by
  refine List.sum_eq_zero fun a ha => ?_
  obtain ⟨p, hp, rfl⟩ := List.mem_map.1 ha
  rw [h p hp, sub_self, zero_pow two_ne_zero]

variable [LinearOrder α] [IsStrictOrderedRing α]

/-- Residuals are not negative. -/
theorem squaredResiduals_nonneg (f : α → α) : 0 ≤ squaredResiduals s f := by
  refine List.sum_nonneg fun a ha => ?_
  obtain ⟨p, -, rfl⟩ := List.mem_map.1 ha
  exact sq_nonneg _

/-- A function without residuals goes through all samples. -/
theorem eq_of_squaredResiduals_nonpos {f : α → α} (h : squaredResiduals s f ≤ 0)
    {p : Sample α} (hp : p ∈ s.samples) : p.y = f p.x := by
  have hle : (p.y - f p.x) ^ 2 ≤ squaredResiduals s f :=
    List.single_le_sum (fun a ha => by
      obtain ⟨q, -, rfl⟩ := List.mem_map.1 ha
      exact sq_nonneg _) _ (List.mem_map.2 ⟨p, hp, rfl⟩)
  exact sub_eq_zero.1 (pow_eq_zero_iff two_ne_zero |>.1 (le_antisymm (hle.trans h) (sq_nonneg _)))

/-! ## The coefficient of determination -/

/-- The least normal number is positive. -/
theorem leastNormal_pos : 0 < (leastNormal : α) := by
  unfold leastNormal
  generalize 1022 = n
  have h : 0 < Nat.pow 2 n := Nat.pow_pos two_pos
  exact one_div_pos.2 (Nat.cast_pos.2 h)

/-- The rounding error is not negative. -/
theorem roundingError_nonneg : 0 ≤ (roundingError : α) := by
  rw [roundingError]
  positivity

/-- What comes as near as every constant explains a share of the spread. -/
theorem determination_mem_unit {cs : List α}
    (h : ∀ c : α, residualSum cs s ≤ squaredResiduals s fun _ => c) :
    0 ≤ determination cs s ∧ determination cs s ≤ 1 := by
  rw [determination]
  split
  · split
    · exact ⟨zero_le_one, le_rfl⟩
    · exact ⟨le_rfl, zero_le_one⟩
  · next hspread =>
    have hpos : 0 < spread s := leastNormal_pos.trans (lt_of_not_ge hspread)
    have hle : residualSum cs s ≤ spread s := spread_eq s ▸ h _
    have hnonneg : 0 ≤ residualSum cs s := residualSum_eq s cs ▸ squaredResiduals_nonneg s _
    exact ⟨sub_nonneg.2 ((div_le_one hpos).2 hle), sub_le_self 1 (div_nonneg hnonneg hpos.le)⟩

/-- A fit without residuals has the coefficient of determination one. -/
theorem determination_eq_one {cs : List α} (h : residualSum cs s = 0) :
    determination cs s = 1 := by
  rw [determination, h, zero_div, sub_zero, if_pos roundingError_nonneg, ite_self]

end Residuals

/-! ## The fit -/

section Fit

variable {α : Type} [Field α]

/-- Coefficients up to an order make a polynomial of this degree at most. -/
theorem natDegree_le_of_length {cs : List α} {order : Nat} (h : cs.length = order + 1) :
    (polynomialOf cs).natDegree ≤ order := by
  have hlt := natDegree_polynomialOf_lt (List.ne_nil_of_length_eq_add_one h)
  omega

/-- What solves the normal equations comes as near to a series as all polynomials of the order. -/
theorem squaredResiduals_le [LinearOrder α] [IsStrictOrderedRing α] {s : Series α} {order : Nat}
    {cs : List α} (hlength : cs.length = order + 1)
    (h : ((powers s order)ᵀ * powers s order) *ᵥ vectorOf (order + 1) cs =
      (powers s order)ᵀ *ᵥ values s)
    {q : α[X]} (hq : q.natDegree ≤ order) :
    (squaredResiduals s fun x => (polynomialOf cs).eval x) ≤
      squaredResiduals s fun x => q.eval x := by
  have hcs : (fun j : Fin (order + 1) => (polynomialOf cs).coeff j) = vectorOf (order + 1) cs :=
    funext fun j => coeff_polynomialOf cs j
  rw [squaredResiduals_eq_dotProduct s hq,
    squaredResiduals_eq_dotProduct s (natDegree_le_of_length hlength), hcs]
  exact residual_le h _

/-- Polynomials of the order that agree at more positions than the order have the same
coefficients. -/
theorem eq_map_coeff [DecidableEq α] {s : Series α} {order : Nat} {cs : List α} {q : α[X]}
    (hlength : cs.length = order + 1) (hq : q.natDegree ≤ order)
    (hcard : order + 1 ≤ s.xs.toFinset.card)
    (h : ∀ p ∈ s.samples, (polynomialOf cs).eval p.x = q.eval p.x) :
    cs = (List.range (order + 1)).map q.coeff := by
  have heq : polynomialOf cs = q := by
    refine eq_of_natDegree_lt_card_of_eval_eq' _ _ s.xs.toFinset (fun x hx => ?_)
      (Nat.lt_of_lt_of_le (Nat.lt_succ_of_le (max_le (natDegree_le_of_length hlength) hq)) hcard)
    obtain ⟨p, hp, rfl⟩ := List.mem_map.1 (List.mem_toFinset.1 hx)
    exact h p hp
  refine List.ext_getElem (by simpa using hlength) fun i hi _ => ?_
  rw [List.getElem_map, List.getElem_range, ← heq, coeff_polynomialOf, List.getD_eq_getElem _ _ hi]

variable [LinearOrder α]

/-- A fit is made if its coefficients can be counted and there are samples for all of them. -/
theorem ofSeriesBy_eq_ok_iff {solve : List (List α) → List α → List α} {s : Series α}
    {order : Nat} {fit : PolynomialFit α} :
    ofSeriesBy solve s order = .ok fit ↔ order + 1 < wordBound ∧ order + 1 ≤ s.size ∧
      ∃ cs, solve (normalMatrix (powerColumns s.xs order))
          (normalRhs (powerColumns s.xs order) s.ys) = cs ∧
        fit = ⟨order, cs, determination cs s⟩ := by
  have hfinite (xss : List (List α)) (xs : List α) :
      (!(xss.all (·.all isFinite) && xs.all isFinite)) = false := by simp
  simp only [ofSeriesBy, ite_error_eq_ok_iff, hfinite, Bool.false_eq_true, not_false_eq_true,
    true_and, not_le, not_lt, exists_eq_left', Except.ok.injEq, eq_comm (a := fit)]

variable [IsStrictOrderedRing α]

/-- **A fit is one of least squares.** If its equations are solved by the pseudo-inverse, a fit has
one coefficient more than its order says, and no polynomial of the order leaves less squared
residuals, however often positions repeat. The coefficient of determination lies between zero and
one. Samples of a polynomial of the order, at more positions than the order says, give back the
coefficients of this polynomial, with zeros for the powers that it does not have, and are explained
in full. -/
theorem fit_is_least_squares {solve : List (List α) → List α → List α} {s : Series α}
    {order : Nat} {fit : PolynomialFit α}
    (hsolve : AppliesPseudoInverse solve (normalMatrix (powerColumns s.xs order)))
    (h : ofSeriesBy solve s order = .ok fit) :
    fit.coefficients.length = order + 1 ∧
      (∀ q : α[X], q.natDegree ≤ order →
        squaredResiduals s fit.evaluate ≤ squaredResiduals s fun x => q.eval x) ∧
      0 ≤ fit.rSquared ∧ fit.rSquared ≤ 1 ∧
      ∀ q : α[X], q.natDegree ≤ order → (∀ p ∈ s.samples, p.y = q.eval p.x) →
        order + 1 ≤ s.xs.toFinset.card →
        fit.coefficients = (List.range (order + 1)).map q.coeff ∧ fit.rSquared = 1 := by
  obtain ⟨-, -, cs, hcs, rfl⟩ := ofSeriesBy_eq_ok_iff.1 h
  obtain ⟨cs', hcs', hlength, hnormal⟩ := solves_of_appliesPseudoInverse s order hsolve
  obtain rfl : cs = cs' := hcs.symm.trans hcs'
  have hvalue : evaluate (α := α) ⟨order, cs, determination cs s⟩ =
      fun x => (polynomialOf cs).eval x := funext fun x => (eval_polynomialOf cs x).symm
  have hleast {q : α[X]} (hq : q.natDegree ≤ order) := squaredResiduals_le hlength hnormal hq
  have hconstant (c : α) : residualSum cs s ≤ squaredResiduals s fun _ => c := by
    have hc := hleast (q := C c) (by simp)
    simpa only [residualSum_eq, eval_C] using hc
  obtain ⟨hr₀, hr₁⟩ := determination_mem_unit s hconstant
  refine ⟨hlength, fun q hq => hvalue ▸ hleast hq, hr₀, hr₁, fun q hq hy hcard => ?_⟩
  have hnone : squaredResiduals s (fun x => (polynomialOf cs).eval x) ≤ 0 :=
    (hleast hq).trans_eq (squaredResiduals_eq_zero s hy)
  refine ⟨eq_map_coeff hlength hq hcard fun p hp =>
    (eq_of_squaredResiduals_nonpos s hnone hp).symm.trans (hy p hp), determination_eq_one s ?_⟩
  rw [residualSum_eq]
  exact le_antisymm hnone (squaredResiduals_nonneg s _)

/-- Samples of `1 + 2 * x` at `-1` and `1`, both taken twice. -/
theorem fit_is_least_squares_line :
    let s : Series ℝ := ⟨[⟨-1, -1⟩, ⟨1, 3⟩, ⟨1, 3⟩, ⟨-1, -1⟩]⟩
    ∃ fit, AppliesPseudoInverse pseudoSolve (normalMatrix (powerColumns s.xs 1)) ∧
      ofSeries s 1 = .ok fit ∧ fit.coefficients = [1, 2] ∧ fit.rSquared = 1 := by
  intro s
  have hmatrix : normalMatrix (powerColumns s.xs 1) = [[4, 0], [0, 4]] := by
    simp only [s, powerColumns, Series.xs, List.map_cons, List.map_nil, powInt_natCast,
      List.range_succ, List.range_zero, List.nil_append, List.cons_append, normalMatrix, dot]
    norm_num
  have hsolve : AppliesPseudoInverse pseudoSolve (normalMatrix (powerColumns s.xs 1)) :=
    hmatrix ▸ appliesPseudoInverse_scalar four_pos
  have hok : ofSeries s 1 = .ok _ :=
    ofSeriesBy_eq_ok_iff.2 ⟨by decide, by simp [s, Series.size], _, rfl, rfl⟩
  obtain ⟨-, -, -, -, hexact⟩ := fit_is_least_squares hsolve hok
  have hdegree : (C 1 + C 2 * X : ℝ[X]).natDegree ≤ 1 := by compute_degree
  have hvalues : ∀ p ∈ s.samples, p.y = (C 1 + C 2 * X : ℝ[X]).eval p.x := by
    simp [s]
    norm_num
  have hcard : 1 + 1 ≤ s.xs.toFinset.card := by
    simp [s, Series.xs]
    norm_num
  obtain ⟨hcoefficients, hr⟩ := hexact _ hdegree hvalues hcard
  refine ⟨_, hsolve, hok, hcoefficients.trans ?_, hr⟩
  simp [List.range_succ, coeff_one]

end Fit

end PolynomialFit

end SignalCalc
