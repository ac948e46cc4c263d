import SignalCalc.Poly.Basic

/-!
# Degrees

The degree of a polynomial is one less than the count of its coefficients, and counting them needs
no laws of their arithmetic. So degrees of sums and products are bounded over doubles as well,
whether coefficients overflow, vanish or are undefined.

Main statements: `Poly.natDegree_add_le`, `Poly.natDegree_mul_le`, `Poly.natDegree_pow_le`.
-/

namespace SignalCalc

/-! ## Counts of coefficients -/

section Lists

variable {α : Type} [Zero α]

/-- Dropping trailing zeros makes no list longer. -/
theorem length_dropTrailingZeros_le [BEq α] (cs : List α) :
    (dropTrailingZeros cs).length ≤ cs.length := by
  induction cs with
  | nil => exact Nat.le_refl 0
  | cons c cs ih =>
    rw [dropTrailingZeros]
    split
    · split <;> simp
    · next d ds h =>
      rw [h] at ih
      exact Nat.succ_le_succ ih

variable [Add α]

/-- A sum of lists is as long as the longer one. -/
theorem length_addLists (as bs : List α) :
    (Poly.addLists as bs).length = max as.length bs.length := by
  fun_induction Poly.addLists as bs with
  | case1 as => simp
  | case2 bs => simp
  | case3 a as b bs ih => simp [ih]

variable [Mul α]

omit [Zero α] in
/-- Adding multiples in place keeps the length. -/
theorem length_addMultiples (a : α) (sums bs : List α) :
    (Poly.addMultiples a sums bs).length = sums.length := by
  induction sums generalizing bs with
  | nil => cases bs <;> rfl
  | cons sum sums ih => cases bs <;> simp [Poly.addMultiples, ih]

omit [Zero α] in
/-- A product that is summed up in place keeps the length. -/
theorem length_mulLists (sums as bs : List α) :
    (Poly.mulLists sums as bs).length = sums.length := by
  induction as generalizing sums with
  | nil => rfl
  | cons a as ih =>
    have hl := length_addMultiples a sums bs
    rw [Poly.mulLists]
    split
    · next h =>
      rw [h] at hl
      exact hl
    · next sum sums' h =>
      rw [h] at hl
      rw [← hl, List.length_cons, List.length_cons, ih]

end Lists

namespace Poly

variable {α : Type} [Zero α] [BEq α]

/-! ## Degrees of given polynomials -/

/-- Only a polynomial without coefficients is zero. -/
theorem isZero_iff (p : Poly α) : p.isZero = true ↔ p.coeffs = [] := by
  rw [isZero, List.isEmpty_iff]

/-- Only a polynomial without coefficients has no degree. -/
theorem degree?_eq_none_iff (p : Poly α) : p.degree? = none ↔ p.coeffs = [] := by
  unfold degree?
  cases p.coeffs <;> simp

/-- A degree is one less than the number of coefficients. -/
theorem degree?_eq_some_iff (p : Poly α) (n : Nat) :
    p.degree? = some n ↔ p.coeffs.length = n + 1 := by
  unfold degree?
  cases p.coeffs <;> simp

/-- The degree of a polynomial that has one. -/
theorem natDegree_eq_of_degree? {p : Poly α} {n : Nat} (h : p.degree? = some n) :
    p.natDegree = n := by
  rw [natDegree, h, Option.getD_some]

/-- The degree is one less than the number of coefficients, and zero if there are none. -/
theorem natDegree_eq (p : Poly α) : p.natDegree = p.coeffs.length - 1 := by
  unfold natDegree degree?
  cases p.coeffs <;> rfl

/-- There is at most one coefficient more than the degree says. -/
theorem length_coeffs_le (p : Poly α) : p.coeffs.length ≤ p.natDegree + 1 := by
  rw [natDegree_eq]
  omega

/-- Polynomials that are no numbers are those of positive degree. -/
theorem const?_eq_none_iff (p : Poly α) : p.const? = none ↔ 0 < p.natDegree := by
  rw [natDegree_eq, const?]
  rcases p.coeffs with - | ⟨c, - | ⟨d, cs⟩⟩ <;> simp

/-- Trailing zeros of a list make the degree smaller only. -/
theorem natDegree_ofList_le (cs : List α) : (ofList cs).natDegree ≤ cs.length - 1 := by
  rw [natDegree_eq]
  exact Nat.sub_le_sub_right (length_dropTrailingZeros_le cs) 1

/-- A constant has degree zero. -/
theorem natDegree_const (c : α) : (const c).natDegree = 0 :=
  Nat.le_zero.1 (natDegree_ofList_le [c])

/-- The variable has degree one at most. It would have less in numbers in which one is zero. -/
theorem natDegree_s_le [One α] : (s : Poly α).natDegree ≤ 1 := natDegree_ofList_le [0, 1]

/-! ## Degrees of sums and products -/

variable [Mul α] (p q : Poly α)

/-- A factor makes the degree smaller only, when coefficients vanish. -/
theorem natDegree_scale_le (c : α) : (p.scale c).natDegree ≤ p.natDegree := by
  rw [natDegree_eq p, ← List.length_map]
  exact natDegree_ofList_le _

/-- A change of sign does not make the degree greater. -/
theorem natDegree_neg_le [One α] [Neg α] : (-p).natDegree ≤ p.natDegree := p.natDegree_scale_le _

variable [Add α]

omit [Mul α] in
/-- The degree of a sum is at most the greater one. -/
theorem natDegree_add_le : (p + q).natDegree ≤ max p.natDegree q.natDegree := by
  have h : (p + q).natDegree ≤ (addLists p.coeffs q.coeffs).length - 1 := natDegree_ofList_le _
  rw [length_addLists] at h
  rw [natDegree_eq p, natDegree_eq q]
  omega

/-- The degree of a difference is at most the greater one. -/
theorem natDegree_sub_le [One α] [Neg α] : (p - q).natDegree ≤ max p.natDegree q.natDegree := by
  have h : (p - q).natDegree ≤ max p.natDegree (-q).natDegree := natDegree_add_le p (-q)
  have hneg := q.natDegree_neg_le
  omega

/-- A product has a sum of products for every pair of coefficients, whatever they are. -/
theorem natDegree_mul_le : (p * q).natDegree ≤ p.natDegree + q.natDegree := by
  by_cases h : (p.isZero || q.isZero) = true
  · have hzero : p * q = 0 := if_pos h
    rw [hzero]
    exact Nat.zero_le _
  · have hmul : p * q = ofList (mulLists (List.replicate (p.coeffs.length + q.coeffs.length - 1) 0)
        p.coeffs q.coeffs) := if_neg h
    have hle := natDegree_ofList_le (mulLists
      (List.replicate (p.coeffs.length + q.coeffs.length - 1) 0) p.coeffs q.coeffs)
    rw [← hmul, length_mulLists, List.length_replicate] at hle
    rw [natDegree_eq p, natDegree_eq q]
    omega

/-- The degree of a power is at most the exponent times that of the base. -/
theorem natDegree_pow_le [One α] (n : Nat) : (p.pow n).natDegree ≤ n * p.natDegree := by
  induction n with
  | zero =>
    rw [Nat.zero_mul]
    exact Nat.le_of_eq (natDegree_const 1)
  | succ n ih =>
    calc (p.pow n * p).natDegree ≤ (p.pow n).natDegree + p.natDegree := natDegree_mul_le _ _
      _ ≤ n * p.natDegree + p.natDegree := Nat.add_le_add_right ih _
      _ = (n + 1) * p.natDegree := (Nat.succ_mul _ _).symm

end Poly

end SignalCalc
