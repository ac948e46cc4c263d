import SignalCalc.Expression.Symbolic
import SignalCalc.Proofs.Outcome

/-!
# Outcomes of symbolic operations

When an operation on polynomials gives a polynomial, and which. The lemmas say all that passed
checks tell, so that nothing else has to open the operations.
-/

namespace SignalCalc.Poly

variable {α : Type} [Zero α] [BEq α] {p q r : Poly α}

/-- The number that a polynomial stands for, if it is constant. -/
theorem constOr_eq_ok_iff {otherwise : NotPolynomial α} {c : α} :
    p.constOr otherwise = .ok c ↔ p.const? = some c := by
  unfold constOr
  cases p.const? <;> simp

/-- A polynomial passes the check unchanged, up to the greatest degree. -/
theorem checkDegree_eq_ok_iff : p.checkDegree = .ok r ↔ p.natDegree ≤ maxDegree ∧ r = p := by
  rw [checkDegree, ite_error_eq_ok_iff, Nat.not_lt, Except.ok.injEq, eq_comm]

/-- A function is computed of a constant, and only if it is one of a number. -/
theorem builtin_eq_ok_iff [Elementary α] {f : Builtin} {text : String} :
    builtin f text p = .ok r ↔
      ∃ c g, p.const? = some c ∧ f.onNumber? = some g ∧ r = const (g c) := by
  rw [builtin, bind_eq_ok_iff]
  refine exists_congr fun c => ?_
  rw [constOr_eq_ok_iff]
  cases (f.onNumber? : Option (α → α)) <;> simp [eq_comm]

/-- A quotient is computed if the divisor is a constant, finite and not zero. -/
theorem divide_eq_ok_iff [One α] [Sub α] [Mul α] [Div α] :
    p.divide q = .ok r ↔
      ∃ c, q.const? = some c ∧ (c == 0) = false ∧ isFinite c = true ∧ r = p.scale (1 / c) := by
  rw [divide, bind_eq_ok_iff]
  refine exists_congr fun c => ?_
  simp only [constOr_eq_ok_iff, throw_eq_error, error_bind, ite_error_eq_ok_iff, pure_eq_ok,
    Except.ok.injEq, Bool.or_eq_true, Bool.not_eq_true', not_or, Bool.not_eq_true,
    Bool.not_eq_false, and_assoc, @eq_comm _ r]

/-- What a power comes to: a constant of a constant, and otherwise what is multiplied out after two
checks of the exponent. -/
theorem power_eq_ok_iff [One α] [Add α] [Sub α] [Mul α] [LT α] [DecidableLT α] [Elementary α] :
    p.power q = .ok r ↔ ∃ e, q.const? = some e ∧
      ((∃ base, p.const? = some base ∧ r = const (Elementary.pow base e)) ∨
        p.const? = none ∧ ¬e < 0 ∧ (e - Elementary.floor e == 0) = true ∧
          p.natDegree * Elementary.roundToNat e ≤ maxDegree ∧
          r = p.pow (Elementary.roundToNat e)) := by
  rw [power, bind_eq_ok_iff]
  refine exists_congr fun e => ?_
  rw [constOr_eq_ok_iff]
  refine and_congr_right fun _ => ?_
  cases p.const? with
  | some base =>
    constructor
    · intro h
      cases h
      exact .inl ⟨base, rfl, rfl⟩
    · rintro (⟨base', hbase, rfl⟩ | ⟨hnone, -⟩)
      · cases hbase
        rfl
      · cases hnone
  | none =>
    simp only [throw_eq_error, error_bind, ite_error_eq_ok_iff, pure_eq_ok, Except.ok.injEq,
      Bool.or_eq_true, decide_eq_true_eq, Bool.not_eq_true', not_or, Bool.not_eq_false, Nat.not_lt,
      reduceCtorEq, false_and, exists_false, false_or, true_and, and_assoc, @eq_comm _ r]

end SignalCalc.Poly
