import Mathlib.Algebra.BigOperators.Intervals
import Mathlib.RingTheory.RootsOfUnity.Complex
import SignalCalc.Proofs.Cplx
import SignalCalc.Spectrum.Fourier

/-!
# The transform and its defining sum

In exact arithmetic a number is turned by multiplying it with a power of the root of unity
(`Fourier.toComplex_turn`), so the bins of the direct transform are sums of such multiples
(`Fourier.dft`). The sum over a list of even length is made of the sums over the entries at even and
at odd indices (`Fourier.dft_halves`), which is what the fast transform does with its halves. The
sums of the powers themselves vanish but for exponents that the length divides
(`Fourier.sum_unitRoot_pow`).

Main statement: `Fourier.toComplex_transform`.
-/

namespace SignalCalc

namespace Fourier

/-! ## Roots of unity -/

/-- One step of the `n`-th part of a turn clockwise. -/
noncomputable def unitRoot (n : Nat) : ℂ :=
  Complex.exp (-((2 : Nat) * Real.pi * Complex.I / n))

variable {n : Nat}

/-- The powers of the root up to the length are all different. -/
theorem isPrimitiveRoot_unitRoot (hn : n ≠ 0) : IsPrimitiveRoot (unitRoot n) n := by
  rw [unitRoot, Nat.cast_ofNat, Complex.exp_neg]
  exact (Complex.isPrimitiveRoot_exp n hn).inv

/-- A power of the root is a turn by as many steps. -/
theorem unitRoot_pow (n k : Nat) :
    unitRoot n ^ k = Complex.exp (-(2 * Real.pi * k / n) * Complex.I) := by
  rw [unitRoot, Nat.cast_ofNat, ← Complex.exp_nat_mul]
  ring_nf

/-- The steps of whole turns do not count. -/
theorem unitRoot_pow_mod (hn : n ≠ 0) (k : Nat) : unitRoot n ^ (k % n) = unitRoot n ^ k :=
  (pow_eq_pow_mod k (isPrimitiveRoot_unitRoot hn).pow_eq_one).symm

/-- Two steps at twice the length are one step. -/
theorem unitRoot_two_mul_pow_two (n : Nat) : unitRoot (2 * n) ^ 2 = unitRoot n := by
  rcases Nat.eq_zero_or_pos n with rfl | hn
  · simp [unitRoot]
  have hn' : (n : ℂ) ≠ 0 := Nat.cast_ne_zero.2 hn.ne'
  rw [unitRoot_pow, unitRoot]
  congr 1
  push_cast
  field_simp

/-- Half a turn. -/
theorem unitRoot_two_mul_pow (hn : n ≠ 0) : unitRoot (2 * n) ^ n = -1 := by
  have hn' : (n : ℂ) ≠ 0 := Nat.cast_ne_zero.2 hn
  have hangle : (-(2 * Real.pi * n / (2 * n : ℕ)) * Complex.I : ℂ) = -(Real.pi * Complex.I) := by
    push_cast
    field_simp
  rw [unitRoot_pow, hangle, Complex.exp_neg_pi_mul_I]

/-- A quarter turn. -/
theorem unitRoot_four_mul_pow (hn : n ≠ 0) : unitRoot (4 * n) ^ n = -Complex.I := by
  have hn' : (n : ℂ) ≠ 0 := Nat.cast_ne_zero.2 hn
  have hangle : (-(2 * Real.pi * n / (4 * n : ℕ)) * Complex.I : ℂ) = -Real.pi / 2 * Complex.I := by
    push_cast
    field_simp
    norm_num
  rw [unitRoot_pow, hangle, Complex.exp_neg_pi_div_two_mul_I]

/-- The powers over a whole period add up to zero, if they are not all one. -/
theorem sum_unitRoot_pow (hn : n ≠ 0) (k : Nat) :
    ∑ j ∈ Finset.range n, unitRoot n ^ (j * k) = if n ∣ k then (n : ℂ) else 0 := by
  have hroot := isPrimitiveRoot_unitRoot hn
  have hpow : ∀ j, unitRoot n ^ (j * k) = (unitRoot n ^ k) ^ j := by
    intro j
    rw [← pow_mul, mul_comm]
  simp only [hpow]
  split
  · next h => simp [(hroot.pow_eq_one_iff_dvd k).2 h]
  · next h =>
    have hone : unitRoot n ^ k ≠ 1 := fun h1 => h ((hroot.pow_eq_one_iff_dvd k).1 h1)
    have hfull : (unitRoot n ^ k) ^ n = 1 := by
      rw [← pow_mul, mul_comm, pow_mul, hroot.pow_eq_one, one_pow]
    rw [geom_sum_eq hone, hfull, sub_self, zero_div]

/-- A root is a power of the root of unity. -/
theorem toComplex_root (hn : n ≠ 0) (k : Nat) : (root n k).toComplex = unitRoot n ^ k := by
  have hpi : (Elementary.pi : ℝ) = Real.pi := rfl
  rw [root, Cplx.toComplex_ofPolar, ← unitRoot_pow_mod hn, unitRoot_pow, hpi]
  norm_num

/-- Turning is multiplying, for quarter turns too. -/
theorem toComplex_turn (hn : n ≠ 0) (k : Nat) (z : Cplx ℝ) :
    (turn n k (root n k) z).toComplex = unitRoot n ^ k * z.toComplex := by
  have hmod := unitRoot_pow_mod hn k
  rw [turn]
  split_ifs with h0 h1 h2 h3
  · rw [← hmod, h0, pow_zero, one_mul]
  · have hquarter : unitRoot n ^ k = -Complex.I := by
      have h := unitRoot_four_mul_pow h0
      rwa [h1, hmod] at h
    rw [hquarter]
    apply Complex.ext <;> simp [Cplx.toComplex]
  · have hhalf : unitRoot n ^ k = -1 := by
      have h := unitRoot_two_mul_pow h0
      rwa [h2, hmod] at h
    rw [hhalf]
    apply Complex.ext <;> simp [Cplx.toComplex]
  · obtain ⟨m, hm, hk⟩ : ∃ m, n = 4 * m ∧ k % n = 3 * m := ⟨n / 4, by omega, by omega⟩
    have hquarters : unitRoot n ^ k = Complex.I := by
      rw [← hmod, hk, hm, mul_comm 3 m, pow_mul, unitRoot_four_mul_pow (by omega)]
      simp [pow_succ]
    rw [hquarters]
    apply Complex.ext <;> simp [Cplx.toComplex]
  · rw [Cplx.toComplex_mul, toComplex_root hn]

/-! ## The defining sum -/

/-- Bin `k` of the transform by its defining sum. -/
noncomputable def dft (xs : List (Cplx ℝ)) (k : Nat) : ℂ :=
  ∑ j ∈ Finset.range xs.length, unitRoot xs.length ^ (j * k) * (xs.getD j 0).toComplex

/-- A sum over entries with their indices is one over the indices. -/
theorem sum_map_zipIdx (xs : List (Cplx ℝ)) (f : Cplx ℝ → Nat → ℂ) (m : Nat) :
    ((xs.zipIdx m).map fun (x, j) => f x j).sum =
      ∑ j ∈ Finset.range xs.length, f (xs.getD j 0) (m + j) := by
  induction xs generalizing m with
  | nil => simp
  | cons x xs ih =>
    rw [List.zipIdx_cons, List.map_cons, List.sum_cons, ih, List.length_cons,
      Finset.sum_range_succ', add_comm]
    simp [Nat.add_comm, Nat.add_left_comm]

/-- The plain sum is the transform at a frequency. -/
theorem toComplex_sumAt {xs : List (Cplx ℝ)} (hn : xs.length ≠ 0) (k : Nat) :
    (sumAt xs k).toComplex = dft xs k := by
  rw [sumAt, Cplx.toComplex_sum, List.map_map]
  simp only [Function.comp_def, toComplex_turn hn]
  rw [sum_map_zipIdx xs (fun x j => unitRoot xs.length ^ (j * k) * x.toComplex), dft]
  simp only [Nat.zero_add]

/-- The table has the roots that the sum needs. -/
theorem sums_eq (xs : List (Cplx ℝ)) : sums xs = (List.range xs.length).map (sumAt xs) := by
  refine List.map_congr_left fun k hk => ?_
  have hpos : 0 < xs.length := Nat.zero_lt_of_lt (List.mem_range.1 hk)
  have htable : ∀ j, (Array.ofFn fun i : Fin xs.length => (root xs.length i : Cplx ℝ)).getD
      (j * k % xs.length) 0 = root xs.length (j * k) := by
    intro j
    have hlt := Nat.mod_lt (j * k) hpos
    simp [Array.getD, hlt, root]
  rw [sumAt]
  simp only [htable]

/-- The bins are repeated after the length. -/
theorem dft_length_add (xs : List (Cplx ℝ)) (k : Nat) : dft xs (xs.length + k) = dft xs k := by
  refine Finset.sum_congr rfl fun j hj => ?_
  have hn : xs.length ≠ 0 := Nat.ne_zero_of_lt (Finset.mem_range.1 hj)
  rw [← unitRoot_pow_mod hn, Nat.mul_add, Nat.mul_add_mod_self_right, unitRoot_pow_mod hn]

/-! ## Halves -/

/-- The entries at even indices. -/
theorem getD_evens (xs : List (Cplx ℝ)) (j : Nat) : (evens xs).getD j 0 = xs.getD (2 * j) 0 := by
  fun_induction evens xs generalizing j with
  | case1 => rfl
  | case2 a => cases j <;> rfl
  | case3 a b rest ih =>
    cases j with
    | zero => rfl
    | succ j => exact ih j

/-- The entries at odd indices. -/
theorem getD_odds (xs : List (Cplx ℝ)) (j : Nat) :
    (odds xs).getD j 0 = xs.getD (2 * j + 1) 0 := by
  cases xs with
  | nil => rfl
  | cons a rest => exact getD_evens rest j

/-- A sum over an even range is that over its even and its odd indices. -/
theorem sum_range_two_mul (f : Nat → ℂ) (m : Nat) :
    ∑ j ∈ Finset.range (2 * m), f j =
      ∑ j ∈ Finset.range m, f (2 * j) + ∑ j ∈ Finset.range m, f (2 * j + 1) := by
  induction m with
  | zero => simp
  | succ m ih =>
    rw [Nat.mul_succ, Finset.sum_range_succ, Finset.sum_range_succ, ih, Finset.sum_range_succ,
      Finset.sum_range_succ]
    ring

/-- The sum over a list of even length from those over its entries at even and at odd indices. -/
theorem dft_halves {xs : List (Cplx ℝ)} {m : Nat} (hm : xs.length = 2 * m) (k : Nat) :
    dft xs k = dft (evens xs) k + unitRoot (2 * m) ^ k * dft (odds xs) k := by
  have he : (evens xs).length = m := by
    rw [length_evens]
    omega
  have ho : (odds xs).length = m := by
    rw [length_odds]
    omega
  rw [dft, dft, dft, hm, he, ho, sum_range_two_mul, Finset.mul_sum]
  congr 1
  · refine Finset.sum_congr rfl fun j _ => ?_
    rw [getD_evens, Nat.mul_assoc, pow_mul, unitRoot_two_mul_pow_two]
  · refine Finset.sum_congr rfl fun j _ => ?_
    have hexp : (2 * j + 1) * k = k + 2 * (j * k) := by ring
    rw [getD_odds, hexp, pow_add, pow_mul, unitRoot_two_mul_pow_two, mul_assoc]

/-- The two halves of what is merged, by the sum and the difference of the even part and the turned
odd one. -/
theorem getD_merge {even odd : List (Cplx ℝ)} {m k : Nat} (he : even.length = m)
    (ho : odd.length = m) (hk : k < m) (n : Nat) :
    (merge n even odd).getD k 0 = even.getD k 0 + turn n k (root n k) (odd.getD k 0) ∧
      (merge n even odd).getD (m + k) 0 =
        even.getD k 0 - turn n k (root n k) (odd.getD k 0) := by
  subst he
  simp [merge, List.getD_eq_getElem?_getD, List.getElem?_append, ho, hk]

/-- **The fast transform has the defining sums as its bins.** -/
theorem toComplex_transform (xs : List (Cplx ℝ)) {k : Nat} (hk : k < xs.length) :
    ((transform xs).getD k 0).toComplex = dft xs k := by
  fun_induction transform xs generalizing k with
  | case1 xs h ihe iho =>
    obtain ⟨m, hm⟩ : ∃ m, xs.length = 2 * m := ⟨xs.length / 2, by omega⟩
    have hm0 : m ≠ 0 := by omega
    have he : (evens xs).length = m := by
      rw [length_evens]
      omega
    have ho : (odds xs).length = m := by
      rw [length_odds]
      omega
    -- Both halves of the bins come from the same two transforms, so they are told together.
    have hbin : ∀ k' < m, ((merge xs.length (transform (evens xs)) (transform (odds xs))).getD k'
          0).toComplex = dft xs k' ∧
        ((merge xs.length (transform (evens xs)) (transform (odds xs))).getD (m + k')
          0).toComplex = dft xs (m + k') := by
      intro k' hk'
      obtain ⟨hlow, hhigh⟩ := getD_merge (n := xs.length) ((length_transform _).trans he)
        ((length_transform _).trans ho) hk'
      have hturn : unitRoot (2 * m) ^ (m + k') = -unitRoot (2 * m) ^ k' := by
        rw [pow_add, unitRoot_two_mul_pow hm0, neg_one_mul]
      have heven := dft_length_add (evens xs) k'
      have hodd := dft_length_add (odds xs) k'
      rw [he] at heven
      rw [ho] at hodd
      rw [hlow, hhigh, Cplx.toComplex_add, Cplx.toComplex_sub, toComplex_turn h.1, ihe (he ▸ hk'),
        iho (ho ▸ hk'), dft_halves hm, dft_halves hm, hturn, heven, hodd, hm]
      constructor <;> ring
    rcases Nat.lt_or_ge k m with hlt | hge
    · exact (hbin k hlt).1
    · obtain ⟨k', rfl⟩ := Nat.exists_eq_add_of_le hge
      exact (hbin k' (by omega)).2
  | case2 xs h =>
    have hget : (sums xs).getD k 0 = sumAt xs k := by
      simp [sums_eq, List.getD_eq_getElem?_getD, hk]
    rw [hget, toComplex_sumAt (Nat.ne_zero_of_lt hk)]

end Fourier

end SignalCalc
