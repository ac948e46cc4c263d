import Mathlib.Algebra.Polynomial.Degree.Lemmas
import Mathlib.Algebra.Polynomial.Div
import Mathlib.Tactic.Ring
import SignalCalc.Proofs.Poly.Degree

/-!
# Lists of coefficients as polynomials

Over a commutative ring a list of coefficients stands for a polynomial of the library
(`polynomialOf`), and so does a `Poly` (`Poly.toPolynomial`). The operations on lists are those of
the ring of polynomials, whatever the order of their additions, and dropping zeros at the end
changes nothing. Values, constants and degrees can be read off the polynomial.

Main statements: `Poly.toPolynomial_add`, `Poly.toPolynomial_mul`, `Poly.eval_toPolynomial`,
`Poly.natDegree_toPolynomial`.
-/

namespace SignalCalc

open Polynomial

section Lists

variable {α : Type} [CommRing α]

/-- The polynomial with the given coefficients, ascending by power. -/
noncomputable def polynomialOf : List α → α[X]
  | [] => 0
  | c :: cs => C c + X * polynomialOf cs

@[simp] theorem polynomialOf_nil : polynomialOf ([] : List α) = 0 := rfl

@[simp] theorem polynomialOf_cons (c : α) (cs : List α) :
    polynomialOf (c :: cs) = C c + X * polynomialOf cs :=
  rfl

/-- The coefficients of the polynomial of a list are its entries. -/
theorem coeff_polynomialOf (cs : List α) (n : Nat) :
    (polynomialOf cs).coeff n = cs.getD n 0 := by
  induction cs generalizing n with
  | nil => simp
  | cons c cs ih => cases n <;> simp [coeff_C, ih]

/-- Lists of the same length are equal if their polynomials agree below that power. -/
theorem eq_of_X_pow_dvd_sub {as bs : List α} (hl : as.length = bs.length)
    (h : X ^ as.length ∣ polynomialOf as - polynomialOf bs) : as = bs := by
  refine List.ext_getElem hl fun n ha hb => ?_
  have hn := X_pow_dvd_iff.1 h n ha
  rw [coeff_sub, sub_eq_zero, coeff_polynomialOf, coeff_polynomialOf] at hn
  simpa [List.getD_eq_getElem?_getD, ha, hb] using hn

/-- Lists of one length with the same polynomial are equal. -/
theorem eq_of_polynomialOf_eq {as bs : List α} (hl : as.length = bs.length)
    (h : polynomialOf as = polynomialOf bs) : as = bs :=
  eq_of_X_pow_dvd_sub hl (by rw [h, sub_self]; exact dvd_zero _)

/-- The degree of the polynomial of a list is below the length of the list. -/
theorem natDegree_polynomialOf_lt {cs : List α} (h : cs ≠ []) :
    (polynomialOf cs).natDegree < cs.length := by
  have hl : 0 < cs.length := List.length_pos_iff.2 h
  refine Nat.lt_of_le_sub_one hl (natDegree_le_iff_coeff_eq_zero.2 fun n hn => ?_)
  rw [coeff_polynomialOf, List.getD_eq_getElem?_getD, List.getElem?_eq_none (by omega)]
  rfl

/-- The value of the polynomial of a list, by the scheme of Horner. -/
theorem eval_polynomialOf (cs : List α) (x : α) :
    (polynomialOf cs).eval x = cs.foldr (fun c acc => acc * x + c) 0 := by
  induction cs with
  | nil => simp
  | cons c cs ih =>
    rw [polynomialOf_cons, List.foldr_cons, ← ih]
    simp only [eval_add, eval_C, eval_mul, eval_X]
    ring

/-- A factor of all entries is one of the polynomial. -/
theorem polynomialOf_map_mul (cs : List α) (a : α) :
    polynomialOf (cs.map (· * a)) = polynomialOf cs * C a := by
  induction cs with
  | nil => simp
  | cons c cs ih =>
    rw [List.map_cons, polynomialOf_cons, polynomialOf_cons, ih, C_mul]
    ring

/-- A divisor of all entries is one of the polynomial. -/
theorem polynomialOf_map_div {α : Type} [Field α] (cs : List α) (a : α) :
    polynomialOf (cs.map (· / a)) = polynomialOf cs * C a⁻¹ := by
  simp only [div_eq_mul_inv, polynomialOf_map_mul]

@[simp] theorem polynomialOf_replicate_zero (n : Nat) :
    polynomialOf (List.replicate n (0 : α)) = 0 := by
  induction n with
  | zero => rfl
  | succ n ih => simp [List.replicate_succ, ih]

/-- The entries of a second list belong to the powers behind those of the first. -/
theorem polynomialOf_append (as bs : List α) :
    polynomialOf (as ++ bs) = polynomialOf as + X ^ as.length * polynomialOf bs := by
  induction as with
  | nil => simp
  | cons a as ih =>
    rw [List.cons_append, polynomialOf_cons, polynomialOf_cons, ih, List.length_cons]
    ring

/-- The sum of lists is that of their polynomials. -/
theorem polynomialOf_addLists (as bs : List α) :
    polynomialOf (Poly.addLists as bs) = polynomialOf as + polynomialOf bs := by
  induction as generalizing bs with
  | nil => cases bs <;> simp [Poly.addLists]
  | cons a as ih =>
    cases bs with
    | nil => simp [Poly.addLists]
    | cons b bs =>
      rw [Poly.addLists, polynomialOf_cons, polynomialOf_cons, polynomialOf_cons, ih, C_add]
      ring

/-- Lists of one length are added entry by entry. -/
theorem polynomialOf_zipWith_add {as bs : List α} (h : as.length = bs.length) :
    polynomialOf (List.zipWith (· + ·) as bs) = polynomialOf as + polynomialOf bs := by
  induction as generalizing bs with
  | nil =>
    cases List.length_eq_zero_iff.1 h.symm
    simp
  | cons a as ih =>
    obtain ⟨b, bs, rfl⟩ := List.exists_cons_of_length_eq_add_one h.symm
    rw [List.zipWith_cons_cons, polynomialOf_cons, polynomialOf_cons, polynomialOf_cons,
      ih (Nat.succ.inj h), C_add]
    ring

/-- The multiples of a list are added in full if there are sums for all of them. -/
theorem polynomialOf_addMultiples (a : α) {sums bs : List α} (h : bs.length ≤ sums.length) :
    polynomialOf (Poly.addMultiples a sums bs) = polynomialOf sums + C a * polynomialOf bs := by
  induction sums generalizing bs with
  | nil =>
    cases List.eq_nil_of_length_eq_zero (Nat.le_zero.1 h)
    simp [Poly.addMultiples]
  | cons sum sums ih =>
    cases bs with
    | nil => simp [Poly.addMultiples]
    | cons b bs =>
      rw [Poly.addMultiples, polynomialOf_cons, polynomialOf_cons, polynomialOf_cons,
        ih (Nat.le_of_succ_le_succ h), C_add, C_mul]
      ring

/-- The products are added in full if there are sums for all of them. -/
theorem polynomialOf_mulLists {sums as bs : List α} (h : as.length + bs.length ≤ sums.length + 1) :
    polynomialOf (Poly.mulLists sums as bs) =
      polynomialOf sums + polynomialOf as * polynomialOf bs := by
  induction as generalizing sums with
  | nil => simp [Poly.mulLists]
  | cons a as ih =>
    rw [List.length_cons] at h
    have hm := polynomialOf_addMultiples a (show bs.length ≤ sums.length by omega)
    have hl := length_addMultiples a sums bs
    rw [Poly.mulLists]
    cases hs : Poly.addMultiples a sums bs with
    | nil =>
      rw [hs, List.length_nil] at hl
      have hb : bs = [] := List.eq_nil_of_length_eq_zero (by omega)
      have hn : sums = [] := List.eq_nil_of_length_eq_zero hl.symm
      simp [hb, hn]
    | cons sum rest =>
      rw [hs, List.length_cons] at hl
      rw [hs, polynomialOf_cons] at hm
      rw [polynomialOf_cons, ih (by omega), mul_add, ← add_assoc, hm, polynomialOf_cons]
      ring

end Lists

namespace Poly

variable {α : Type} [CommRing α] [BEq α]

/-- The polynomial over the ring with the same coefficients. -/
noncomputable def toPolynomial (p : Poly α) : α[X] := polynomialOf p.coeffs

@[simp] theorem toPolynomial_zero : (0 : Poly α).toPolynomial = 0 := rfl

/-- A polynomial and what it stands for have the same coefficients. -/
theorem coeff_toPolynomial (p : Poly α) (n : Nat) : p.toPolynomial.coeff n = p.coeff n :=
  coeff_polynomialOf p.coeffs n

/-- A polynomial and what it stands for have the same values. -/
theorem eval_toPolynomial (p : Poly α) (x : α) : p.toPolynomial.eval x = p.evaluate x :=
  eval_polynomialOf p.coeffs x

/-- A polynomial that is one number everywhere is a constant. -/
theorem toPolynomial_of_const? {p : Poly α} {c : α} (h : p.const? = some c) :
    p.toPolynomial = C c := by
  unfold const? at h
  split at h
  · next hp =>
    cases h
    simp [toPolynomial, hp]
  · next hp =>
    cases h
    simp [toPolynomial, hp]
  · cases h

/-- The degree of a polynomial other than zero. -/
theorem degree?_of_ne_zero {p : Poly α} (h : p.toPolynomial ≠ 0) :
    p.degree? = some p.natDegree := by
  cases hd : p.degree? with
  | none =>
    rw [toPolynomial, (degree?_eq_none_iff p).1 hd] at h
    exact absurd rfl h
  | some n => rw [natDegree_eq_of_degree? hd]

variable [LawfulBEq α]

/-! ## Operations -/

/-- Trailing zeros do not count. -/
theorem polynomialOf_dropTrailingZeros (cs : List α) :
    polynomialOf (dropTrailingZeros cs) = polynomialOf cs := by
  induction cs with
  | nil => rfl
  | cons c cs ih =>
    rw [dropTrailingZeros, polynomialOf_cons, ← ih]
    cases dropTrailingZeros cs with
    | nil => by_cases hc : c = 0 <;> simp [hc]
    | cons d ds => rfl

@[simp] theorem toPolynomial_ofList (cs : List α) :
    (ofList cs).toPolynomial = polynomialOf cs :=
  polynomialOf_dropTrailingZeros cs

@[simp] theorem toPolynomial_const (c : α) : (const c).toPolynomial = C c := by
  simp [const]

@[simp] theorem toPolynomial_monomial (n : Nat) : (monomial n : Poly α).toPolynomial = X ^ n := by
  simp [monomial, polynomialOf_append]

@[simp] theorem toPolynomial_s : (s : Poly α).toPolynomial = X := by
  simp [s]

@[simp] theorem toPolynomial_add (p q : Poly α) :
    (p + q).toPolynomial = p.toPolynomial + q.toPolynomial :=
  (toPolynomial_ofList _).trans (polynomialOf_addLists p.coeffs q.coeffs)

@[simp] theorem toPolynomial_scale (p : Poly α) (a : α) :
    (p.scale a).toPolynomial = p.toPolynomial * C a :=
  (toPolynomial_ofList _).trans (polynomialOf_map_mul p.coeffs a)

@[simp] theorem toPolynomial_neg (p : Poly α) : (-p).toPolynomial = -p.toPolynomial := by
  show (p.scale (-1)).toPolynomial = _
  rw [toPolynomial_scale, C_neg, C_1, mul_neg, mul_one]

@[simp] theorem toPolynomial_sub (p q : Poly α) :
    (p - q).toPolynomial = p.toPolynomial - q.toPolynomial := by
  show (p + -q).toPolynomial = _
  rw [toPolynomial_add, toPolynomial_neg, sub_eq_add_neg]

@[simp] theorem toPolynomial_mul (p q : Poly α) :
    (p * q).toPolynomial = p.toPolynomial * q.toPolynomial := by
  show Poly.toPolynomial (if p.isZero || q.isZero then 0 else ofList (mulLists
    (List.replicate (p.coeffs.length + q.coeffs.length - 1) 0) p.coeffs q.coeffs)) = _
  split
  · next h =>
    rw [Bool.or_eq_true, isZero_iff, isZero_iff] at h
    rcases h with h | h <;> simp [toPolynomial, h]
  · rw [toPolynomial_ofList, polynomialOf_mulLists (by rw [List.length_replicate]; omega),
      polynomialOf_replicate_zero, zero_add]
    rfl

@[simp] theorem toPolynomial_pow (p : Poly α) (n : Nat) :
    (p.pow n).toPolynomial = p.toPolynomial ^ n := by
  induction n with
  | zero => rw [pow, toPolynomial_const, C_1, pow_zero]
  | succ n ih => rw [pow, toPolynomial_mul, ih, pow_succ]

/-! ## Degrees -/

/-- The coefficient of the highest power is not zero. -/
theorem coeff_ne_zero_of_degree? {p : Poly α} {n : Nat} (h : p.degree? = some n) :
    p.coeff n ≠ 0 := by
  have hl := (degree?_eq_some_iff p n).1 h
  have hn : n < p.coeffs.length := by omega
  have hg : p.coeffs.getLast? = some p.coeffs[n] := by
    rw [List.getLast?_eq_getElem?, hl, Nat.add_sub_cancel, List.getElem?_eq_getElem hn]
  have hc : p.coeff n = p.coeffs[n] := by
    rw [coeff, List.getD_eq_getElem?_getD, List.getElem?_eq_getElem hn]
    rfl
  rw [hc]
  exact beq_eq_false_iff_ne.1 (p.noTrailingZero _ hg)

/-- The degree of a polynomial is that of what it stands for. -/
theorem natDegree_of_degree? {p : Poly α} {n : Nat} (h : p.degree? = some n) :
    p.toPolynomial.natDegree = n := by
  have hl := (degree?_eq_some_iff p n).1 h
  have hp : p.coeffs ≠ [] := List.ne_nil_of_length_eq_add_one hl
  refine natDegree_eq_of_le_of_coeff_ne_zero ?_ ?_
  · have := natDegree_polynomialOf_lt hp
    rw [toPolynomial]
    omega
  · rw [coeff_toPolynomial]
    exact coeff_ne_zero_of_degree? h

/-- The degree of a polynomial is that of what it stands for, also if it is zero. -/
theorem natDegree_toPolynomial (p : Poly α) : p.toPolynomial.natDegree = p.natDegree := by
  cases h : p.degree? with
  | none => simp [natDegree, h, toPolynomial, (degree?_eq_none_iff p).1 h]
  | some n => rw [natDegree_of_degree? h, natDegree_eq_of_degree? h]

/-- What has a degree is not zero. -/
theorem toPolynomial_ne_zero {p : Poly α} {n : Nat} (h : p.degree? = some n) :
    p.toPolynomial ≠ 0 := by
  intro hz
  have hc := coeff_ne_zero_of_degree? h
  rw [← coeff_toPolynomial, hz] at hc
  exact hc rfl

/-- A polynomial is determined by its coefficients, since its list has no zero at the end. -/
theorem toPolynomial_injective : Function.Injective (toPolynomial : Poly α → α[X]) := by
  have hl {p q : Poly α} (h : p.toPolynomial = q.toPolynomial) :
      p.coeffs.length ≤ q.coeffs.length := by
    cases hp : p.degree? with
    | none => simp [(degree?_eq_none_iff p).1 hp]
    | some n =>
      have hq := degree?_of_ne_zero (p := q) (h ▸ toPolynomial_ne_zero hp)
      rw [← natDegree_toPolynomial, ← h, natDegree_of_degree? hp] at hq
      rw [(degree?_eq_some_iff p n).1 hp, (degree?_eq_some_iff q n).1 hq]
  intro p q h
  refine Poly.ext (List.ext_getElem (Nat.le_antisymm (hl h) (hl h.symm)) fun n hp hq => ?_)
  have hn := congrArg (Polynomial.coeff · n) h
  simp only [coeff_toPolynomial, coeff, List.getD_eq_getElem?_getD,
    List.getElem?_eq_getElem hp, List.getElem?_eq_getElem hq, Option.getD_some] at hn
  exact hn

/-- A constant is found to be one. -/
theorem const?_const (c : α) : (const c).const? = some c := by
  by_cases hc : c = 0 <;> simp [const?, const, dropTrailingZeros, hc]

/-- A polynomial passes for a number if it is a constant, whatever has cancelled in it. -/
theorem const?_eq_some_iff {p : Poly α} {c : α} : p.const? = some c ↔ p.toPolynomial = C c := by
  refine ⟨toPolynomial_of_const?, fun h => ?_⟩
  rw [toPolynomial_injective (h.trans (toPolynomial_const c).symm), const?_const]

end Poly

end SignalCalc
