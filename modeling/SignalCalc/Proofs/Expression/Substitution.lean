import SignalCalc.Expression.Scalar
import SignalCalc.Expression.Solve
import SignalCalc.Proofs.Exact
import SignalCalc.Proofs.Expression.Acceptance
import SignalCalc.Proofs.Expression.Symbolic
import SignalCalc.Proofs.Poly.Ring

/-!
# The polynomial of an expression at a number

In exact arithmetic the polynomial that an expression denotes has, at every number, the value that
the expression has when the number is put in the place of `s`. The symbolic operations take other
ways than the scalar ones: a quotient is the product with a reciprocal, a difference the sum with
a negative, and a power of a constant is not multiplied up. Each has a lemma that its value is that
of the scalar operation, whatever cancels in its operands.

Main statements: `evaluate_scalar_of_symbolic`, by induction on the tree, and
`polynomial_value_is_substitution`.
-/

namespace SignalCalc

variable {α : Type} [Field α] [LinearOrder α]

namespace Poly

/-! ## Values of the operations -/

section Ring

variable (p q : Poly α) (x : α)

@[simp] theorem evaluate_const (c : α) : (const c).evaluate x = c := by
  simp [← eval_toPolynomial]

@[simp] theorem evaluate_s : (s : Poly α).evaluate x = x := by
  simp [← eval_toPolynomial]

@[simp] theorem evaluate_neg : (-p).evaluate x = -p.evaluate x := by
  simp [← eval_toPolynomial]

@[simp] theorem evaluate_add : (p + q).evaluate x = p.evaluate x + q.evaluate x := by
  simp [← eval_toPolynomial]

@[simp] theorem evaluate_sub : (p - q).evaluate x = p.evaluate x - q.evaluate x := by
  simp [← eval_toPolynomial]

@[simp] theorem evaluate_mul : (p * q).evaluate x = p.evaluate x * q.evaluate x := by
  simp [← eval_toPolynomial]

@[simp] theorem evaluate_scale (a : α) : (p.scale a).evaluate x = p.evaluate x * a := by
  simp [← eval_toPolynomial]

@[simp] theorem evaluate_pow (n : Nat) : (p.pow n).evaluate x = p.evaluate x ^ n := by
  simp [← eval_toPolynomial]

end Ring

variable {p q r : Poly α} {c : α}

/-- A polynomial that passes for a number has it as its value everywhere. -/
theorem evaluate_of_const? (h : p.const? = some c) (x : α) : p.evaluate x = c := by
  rw [← eval_toPolynomial, toPolynomial_of_const? h, Polynomial.eval_C]

/-- Every number but zero divides. -/
theorem divide_of_const? (h : q.const? = some c) (hc : c ≠ 0) :
    p.divide q = .ok (p.scale (1 / c)) :=
  divide_eq_ok_iff.2 ⟨c, h, beq_false_of_ne hc, isFinite_eq_true c, rfl⟩

/-- The product with the reciprocal is the quotient. -/
theorem evaluate_divide (h : p.divide q = .ok r) (x : α) :
    r.evaluate x = p.evaluate x / q.evaluate x := by
  obtain ⟨c, hc, -, -, rfl⟩ := divide_eq_ok_iff.1 h
  rw [evaluate_scale, evaluate_of_const? hc, mul_one_div]

/-- A function of a polynomial that is computed is that of its value. -/
theorem evaluate_builtin [Elementary α] {f : Builtin} {text : String}
    (h : builtin f text p = .ok q) (dataset : Nat → α) (x : α) :
    (Interpretation.scalar dataset x).builtin f text (p.evaluate x) = .ok (q.evaluate x) := by
  obtain ⟨c, g, hc, hg, rfl⟩ := builtin_eq_ok_iff.1 h
  simp only [Interpretation.scalar, evaluate_of_const? hc, hg, evaluate_const]

variable [IsStrictOrderedRing α] [FloorRing α] [Elementary α] [ExactElementary α]

/-- The power of a number is the scalar one, and the power of a proper polynomial has a natural
exponent, for which the scalar one is the product. -/
theorem evaluate_power (h : p.power q = .ok r) (x : α) :
    r.evaluate x = Elementary.pow (p.evaluate x) (q.evaluate x) := by
  obtain ⟨e, he, ⟨base, hbase, rfl⟩ | ⟨-, hneg, hwhole, -, rfl⟩⟩ := power_eq_ok_iff.1 h
  · rw [evaluate_const, evaluate_of_const? hbase, evaluate_of_const? he]
  · rw [evaluate_pow, evaluate_of_const? he, ← ExactElementary.pow_natCast,
      natCast_roundToNat (not_lt.1 hneg) (beq_iff_eq.1 hwhole)]

/-- Every natural exponent is taken that keeps to the highest degree. -/
theorem power_natCast {n : Nat} (h : p.const? = none) (hn : p.natDegree * n ≤ maxDegree) :
    p.power (const (n : α)) = .ok (p.pow n) := by
  have hround : Elementary.roundToNat (n : α) = n := roundToNat_natCast n
  have hwhole : ((n : α) - Elementary.floor (n : α) == 0) = true := by
    simp [ExactElementary.floor_eq]
  refine power_eq_ok_iff.2 ⟨n, const?_const _, .inr ⟨h, not_lt.2 n.cast_nonneg, hwhole, ?_, ?_⟩⟩
  · rwa [hround]
  · rw [hround]

/-- An operator on polynomials that is computed is that on their values. -/
theorem evaluate_binary {o : Operator} (h : binary o p q = .ok r) (x : α) :
    r.evaluate x = o.apply (p.evaluate x) (q.evaluate x) := by
  cases o with
  | add =>
    cases h
    exact evaluate_add p q x
  | subtract =>
    cases h
    exact evaluate_sub p q x
  | multiply =>
    obtain ⟨-, rfl⟩ := checkDegree_eq_ok_iff.1 h
    exact evaluate_mul p q x
  | divide => exact evaluate_divide h x
  | modulo => cases h
  | power => exact evaluate_power h x

end Poly

variable [IsStrictOrderedRing α] [FloorRing α] [Elementary α] [ExactElementary α]

/-- Where the symbolic evaluation of a tree gives a polynomial, the scalar one gives its value. -/
theorem Tree.evaluate_scalar_of_symbolic {tree : Tree α} {p : Poly α}
    (h : tree.evaluate Interpretation.symbolic = .ok p) (dataset : Nat → α) (x : α) :
    tree.evaluate (Interpretation.scalar dataset x) = .ok (p.evaluate x) := by
  induction tree generalizing p with
  | number value text position =>
    cases h
    exact congrArg Except.ok (Poly.evaluate_const x value).symm
  | dataset index text position => cases h
  | laplace text position =>
    cases h
    exact congrArg Except.ok (Poly.evaluate_s x).symm
  | negate text position operand ih =>
    obtain ⟨q, hq, h⟩ := bind_eq_ok_iff.1 h
    cases h
    rw [evaluate, ih hq, ok_bind, Poly.evaluate_neg]
    rfl
  | binary o text position left right ihl ihr =>
    obtain ⟨q, hq, h⟩ := bind_eq_ok_iff.1 h
    obtain ⟨r, hr, h⟩ := bind_eq_ok_iff.1 h
    rw [evaluate, ihl hq, ok_bind, ihr hr, ok_bind, Poly.evaluate_binary h]
    rfl
  | call f text position argument ih =>
    obtain ⟨q, hq, h⟩ := bind_eq_ok_iff.1 h
    rw [evaluate, ih hq, ok_bind]
    exact Poly.evaluate_builtin h dataset x

/-- **The polynomial of an expression at a number is the expression at that number.** Let an
expression be solved for a polynomial. Its tokens have a syntax tree, and at every number the
polynomial has the value that evaluating the tree on numbers gives, the number taking the place of
the variable. -/
theorem polynomial_value_is_substitution {names : List String} {expression : String} {p : Poly α}
    (h : solvePoly names expression = .ok p) :
    ∃ tokens tree, scan names .symbolic expression = .ok tokens ∧ Derives .sum tokens tree ∧
      (∀ tree', Derives .sum tokens tree' → tree' = tree) ∧
      ∀ (dataset : Nat → α) (x : α),
        tree.evaluate (Interpretation.scalar dataset x) = .ok (p.evaluate x) := by
  obtain ⟨tokens, hs, hv⟩ := bind_eq_ok_iff.1 h
  obtain ⟨tree, ht⟩ := (arranged_of_scan hs).derives_of_evaluate hv
  rw [ht.evaluate] at hv
  exact ⟨tokens, tree, hs, ht, fun _ h' => ht.eq_of_derives h',
    fun dataset x => Tree.evaluate_scalar_of_symbolic hv dataset x⟩

/-- In `s^2/(s-s+4)` the divisor is a constant once the variable has cancelled. The quotient is
a polynomial, and at six it has the value that the tree has there. -/
theorem polynomial_value_is_substitution_cancelled :
    ∃ (tokens : List (Token ℝ)) (tree : Tree ℝ) (p : Poly ℝ),
      scan [] .symbolic "s^2/(s-s+4)" = .ok tokens ∧ Derives .sum tokens tree ∧
      solvePoly [] "s^2/(s-s+4)" = .ok p ∧ p.evaluate 6 = 9 ∧
      tree.evaluate (Interpretation.scalar (fun _ => 0) 6) = .ok 9 := by
  let two : ℝ := OfScientific.ofScientific 2 false 0
  let four : ℝ := OfScientific.ofScientific 4 false 0
  have htwo : two = (2 : ℕ) := by norm_num [two]
  have hfour : four = 4 := by norm_num [four]
  let tokens : List (Token ℝ) :=
    [⟨.laplace, "s", 0⟩, ⟨.operator .power, "^", 1⟩, ⟨.number two, "2", 2⟩,
      ⟨.operator .divide, "/", 3⟩, ⟨.openParen, "(", 4⟩, ⟨.laplace, "s", 5⟩,
      ⟨.operator .subtract, "-", 6⟩, ⟨.laplace, "s", 7⟩, ⟨.operator .add, "+", 8⟩,
      ⟨.number four, "4", 9⟩, ⟨.closeParen, ")", 10⟩]
  let tree : Tree ℝ :=
    .binary .divide "/" 3 (.binary .power "^" 1 (.laplace "s" 0) (.number two "2" 2))
      (.binary .add "+" 8 (.binary .subtract "-" 6 (.laplace "s" 5) (.laplace "s" 7))
        (.number four "4" 9))
  have hs : scan [] .symbolic "s^2/(s-s+4)" = .ok tokens := by with_unfolding_all rfl
  have ht : toPostfix tokens = .ok tree.postorder := by with_unfolding_all rfl
  have hv : (Poly.s : Poly ℝ).const? = none := by
    simp [Poly.const?, Poly.s, dropTrailingZeros]
  have hn : (Poly.s : Poly ℝ).natDegree = 1 := by
    rw [← Poly.natDegree_toPolynomial, Poly.toPolynomial_s, Polynomial.natDegree_X]
  have hp : (Poly.s : Poly ℝ).power (Poly.const two) = .ok (Poly.s.pow 2) := by
    rw [htwo]
    exact Poly.power_natCast hv (by rw [hn]; decide)
  have hc : (Poly.s - Poly.s + Poly.const four).const? = some four :=
    Poly.const?_eq_some_iff.2 (by simp)
  have he : tree.evaluate Interpretation.symbolic = .ok ((Poly.s.pow 2).scale (1 / four)) := by
    show (Poly.s.power (Poly.const two) >>= fun p =>
      p.divide (Poly.s - Poly.s + Poly.const four)) = _
    rw [hp, ok_bind]
    exact Poly.divide_of_const? hc (by rw [hfour]; norm_num)
  have h : solvePoly [] "s^2/(s-s+4)" = .ok ((Poly.s.pow 2).scale (1 / four)) := by
    rw [solvePoly, hs, ok_bind, Interpretation.evaluate, ht, ok_bind,
      Interpretation.run_postorder]
    exact he
  have h6 : ((Poly.s.pow 2).scale (1 / four)).evaluate 6 = 9 := by
    rw [Poly.evaluate_scale, Poly.evaluate_pow, Poly.evaluate_s, hfour]
    norm_num
  obtain ⟨tokens', tree', hs', hd, -, hx⟩ := polynomial_value_is_substitution h
  exact ⟨tokens', tree', _, hs', hd, h, h6, h6 ▸ hx _ 6⟩

end SignalCalc
