import Mathlib.Algebra.BigOperators.Intervals
import Mathlib.Tactic.NormNum
import SignalCalc.Proofs.Series.Columns

/-!
# Derivatives and integrals of sampled series

The recursions of both transforms are told in steps from one sample to the next. The derivative has
the slope of the step at its end, and the integral grows by the area below the step. These laws hold
in any arithmetic. Without rounding the slope of the integral over a step is then the mean of the
two values, however long the step is and in whichever direction it goes, and the growth over several
steps is the sum of their areas.

Main statements: `getElem?_derivative_succ`, `getElem?_integral_succ`, `integral_increment` by
induction on the steps, and `derivative_undoes_integral`.
-/

namespace SignalCalc.Series

/-! ## Steps -/

section Derivative

variable {α : Type} [Sub α] [Div α]

/-- The slopes belong to pairs of neighbours. -/
theorem slopesAfter_eq_zipWith (previous : Sample α) (samples : List (Sample α)) :
    slopesAfter previous samples =
      List.zipWith (fun a b => ⟨b.x, slope a b⟩) (previous :: samples) samples := by
  induction samples generalizing previous with
  | nil => rfl
  | cons p rest ih => rw [slopesAfter, ih, List.zipWith_cons_cons]

variable [Zero α] {s : Series α} {a b : Sample α}

/-- The derivative at the end of a step. -/
theorem getElem?_derivative_succ {i : Nat} (ha : s.samples[i]? = some a)
    (hb : s.samples[i + 1]? = some b) :
    s.derivative.samples[i + 1]? = some ⟨b.x, slope a b⟩ := by
  match hs : s.samples with
  | [] | [_] => simp [hs] at hb
  | first :: second :: rest =>
    rw [hs] at ha
    rw [hs, List.getElem?_cons_succ] at hb
    rw [derivative, hs, List.getElem?_cons_succ, slopesAfter_eq_zipWith, List.getElem?_zipWith, ha,
      hb]

/-- The derivative at the first sample is that at the second one. -/
theorem getElem?_derivative_zero (ha : s.samples[0]? = some a) (hb : s.samples[1]? = some b) :
    s.derivative.samples[0]? = some ⟨a.x, slope a b⟩ := by
  match hs : s.samples with
  | [] | [_] => simp [hs] at hb
  | first :: second :: rest =>
    rw [hs] at ha hb
    cases ha
    cases hb
    rw [derivative, hs, List.getElem?_cons_zero]

end Derivative

section Integral

variable {α : Type} [Add α] [Sub α] [Mul α] [OfScientific α]

/-- A step of the areas. The induction is on the index, and the state of the recursion goes along
with it. -/
theorem getElem?_areasAfter {previous a b : Sample α} {area v : α} {rest : List (Sample α)}
    {i : Nat} (ha : (previous :: rest)[i]? = some a) (hb : rest[i]? = some b)
    (hv : (⟨previous.x, area⟩ :: areasAfter previous area rest)[i]? = some ⟨a.x, v⟩) :
    (areasAfter previous area rest)[i]? = some ⟨b.x, v + trapezoid a b⟩ := by
  induction i generalizing previous area rest with
  | zero =>
    cases rest with
    | nil => cases hb
    | cons p rest =>
      cases ha
      cases hb
      cases hv
      rfl
  | succ i ih =>
    cases rest with
    | nil => cases hb
    | cons p rest =>
      rw [List.getElem?_cons_succ] at ha hb hv
      exact ih ha hb hv

variable [Zero α] {s : Series α} {a b : Sample α}

/-- The integral starts at zero. -/
theorem getElem?_integral_zero (ha : s.samples[0]? = some a) :
    s.integral.samples[0]? = some ⟨a.x, 0⟩ := by
  cases hs : s.samples with
  | nil => simp [hs] at ha
  | cons first rest =>
    rw [hs] at ha
    cases ha
    rw [integral, hs, List.getElem?_cons_zero]

/-- The integral at the end of a step. -/
theorem getElem?_integral_succ {i : Nat} {v : α} (ha : s.samples[i]? = some a)
    (hb : s.samples[i + 1]? = some b) (hv : s.integral.samples[i]? = some ⟨a.x, v⟩) :
    s.integral.samples[i + 1]? = some ⟨b.x, v + trapezoid a b⟩ := by
  cases hs : s.samples with
  | nil => simp [hs] at ha
  | cons first rest =>
    rw [integral, hs] at hv
    rw [hs] at ha hb
    rw [integral, hs]
    exact getElem?_areasAfter ha hb hv

/-- The integral has a value for every sample. -/
theorem exists_getElem?_integral {i : Nat} (ha : s.samples[i]? = some a) :
    ∃ v, s.integral.samples[i]? = some ⟨a.x, v⟩ := by
  induction i generalizing a with
  | zero => exact ⟨0, getElem?_integral_zero ha⟩
  | succ i ih =>
    obtain ⟨hlt, -⟩ := List.getElem?_eq_some_iff.1 ha
    have hp := List.getElem?_eq_getElem (Nat.lt_of_succ_lt hlt)
    obtain ⟨v, hv⟩ := ih hp
    exact ⟨_, getElem?_integral_succ hp ha hv⟩

end Integral

/-! ## Columns of samples -/

/-- The value of a sample is at its index in the column. -/
theorem getElem?_ys_of_samples {α : Type} {s : Series α} {i : Nat} {p : Sample α}
    (h : s.samples[i]? = some p) : s.ys[i]? = some p.y := by
  rw [ys, List.getElem?_map, h, Option.map_some]

/-- The position of a sample is at its index in the column. -/
theorem getElem?_xs_of_samples {α : Type} {s : Series α} {i : Nat} {p : Sample α}
    (h : s.samples[i]? = some p) : s.xs[i]? = some p.x := by
  rw [xs, List.getElem?_map, h, Option.map_some]

/-! ## Exact arithmetic -/

section Exact

variable {α : Type} [Field α]

/-- The sum of the areas below the steps from one index to another. -/
def trapezoidSum (s : Series α) (j i : ℕ) : α :=
  ∑ k ∈ Finset.Ico j i,
    (s.ys.getD (k + 1) 0 + s.ys.getD k 0) / (2 : ℕ) * (s.xs.getD (k + 1) 0 - s.xs.getD k 0)

variable [CharZero α] {s : Series α} {a b : Sample α}

/-- The area below a step is the mean of its values times its length. -/
theorem trapezoid_eq_mean_mul (a b : Sample α) :
    trapezoid a b = (b.y + a.y) / 2 * (b.x - a.x) := by
  have hhalf : (0.5 : α) = 1 / 2 := by norm_num
  rw [trapezoid, hhalf, one_div_mul_eq_div]

/-- One more trapezoid is added at the end. -/
theorem trapezoidSum_succ {j i : ℕ} (h : j ≤ i) (ha : s.samples[i]? = some a)
    (hb : s.samples[i + 1]? = some b) :
    s.trapezoidSum j (i + 1) = s.trapezoidSum j i + trapezoid a b := by
  rw [trapezoidSum, Finset.sum_Ico_succ_top h, trapezoid_eq_mean_mul, ← trapezoidSum]
  simp only [List.getD_eq_getElem?_getD, getElem?_ys_of_samples ha, getElem?_ys_of_samples hb,
    getElem?_xs_of_samples ha, getElem?_xs_of_samples hb, Option.getD_some, Nat.cast_ofNat]

/-- A step of the integral rises with the mean of the values. -/
theorem getElem?_derivative_integral_succ {i : ℕ} (ha : s.samples[i]? = some a)
    (hb : s.samples[i + 1]? = some b) (hne : a.x ≠ b.x) :
    s.integral.derivative.samples[i + 1]? = some ⟨b.x, (b.y + a.y) / 2⟩ := by
  obtain ⟨v, hv⟩ := exists_getElem?_integral ha
  have hlength : b.x - a.x ≠ 0 := sub_ne_zero.2 hne.symm
  have hslope : slope ⟨a.x, v⟩ ⟨b.x, v + trapezoid a b⟩ = (b.y + a.y) / 2 :=
    calc (v + trapezoid a b - v) / (b.x - a.x)
        = trapezoid a b / (b.x - a.x) := by rw [add_sub_cancel_left]
      _ = (b.y + a.y) / 2 := by rw [trapezoid_eq_mean_mul, mul_div_cancel_right₀ _ hlength]
  rw [getElem?_derivative_succ hv (getElem?_integral_succ ha hb hv), hslope]

/-- The growth of the integral. The induction adds one step at the end. -/
theorem integral_increment {j i : ℕ} (h : j ≤ i) (hi : i < s.size) :
    ∃ u v, s.integral.ys[j]? = some u ∧ s.integral.ys[i]? = some v ∧
      v - u = s.trapezoidSum j i := by
  induction i, h using Nat.le_induction with
  | base =>
    obtain ⟨v, hv⟩ := exists_getElem?_integral (List.getElem?_eq_getElem hi)
    have hy := getElem?_ys_of_samples hv
    exact ⟨v, v, hy, hy, by rw [trapezoidSum, Finset.Ico_self, Finset.sum_empty, sub_self]⟩
  | succ i h ih =>
    have ha := List.getElem?_eq_getElem (Nat.lt_of_succ_lt hi)
    have hb := List.getElem?_eq_getElem hi
    obtain ⟨u, v, hu, hv, hsum⟩ := ih (Nat.lt_of_succ_lt hi)
    obtain ⟨v', hv'⟩ := exists_getElem?_integral ha
    have hstep := getElem?_ys_of_samples (getElem?_integral_succ ha hb hv')
    rw [getElem?_ys_of_samples hv'] at hv
    cases hv
    refine ⟨u, _, hu, hstep, ?_⟩
    rw [trapezoidSum_succ h ha hb, ← hsum, add_sub_right_comm]

/-- **The derivative undoes the integral, up to a mean.** Let no two neighbours among at least two
samples have the same position. The derivative of the integral has the same positions; at every
sample but the first its value is the mean of the sample and the one before, and at the first sample
it is that at the second one. The other way round, the difference between two values of an integral
is the sum of the areas below the steps between them, whatever the positions are. -/
theorem derivative_undoes_integral :
    (∀ s : Series α, 2 ≤ s.size → s.xs.IsChain (· ≠ ·) →
      s.integral.derivative.xs = s.xs ∧
      (∀ i y y', s.ys[i]? = some y → s.ys[i + 1]? = some y' →
        s.integral.derivative.ys[i + 1]? = some ((y' + y) / 2)) ∧
      ∃ y, s.integral.derivative.ys[0]? = some y ∧ s.integral.derivative.ys[1]? = some y) ∧
    ∀ (s : Series α) (j i : ℕ), j ≤ i → i < s.size →
      ∃ u v, s.integral.ys[j]? = some u ∧ s.integral.ys[i]? = some v ∧
        v - u = s.trapezoidSum j i := by
  refine ⟨fun s hs hne => ⟨?_, ?_, ?_⟩, fun s j i h hi => integral_increment h hi⟩
  · rw [xs_derivative, xs_integral]
  · intro i y y' hy hy'
    rw [ys, List.getElem?_map, Option.map_eq_some_iff] at hy hy'
    obtain ⟨a, ha, rfl⟩ := hy
    obtain ⟨b, hb, rfl⟩ := hy'
    obtain ⟨_, hai⟩ := List.getElem?_eq_some_iff.1 (getElem?_xs_of_samples ha)
    obtain ⟨hi, hbi⟩ := List.getElem?_eq_some_iff.1 (getElem?_xs_of_samples hb)
    have hab : a.x ≠ b.x := by
      rw [← hai, ← hbi]
      exact hne.getElem i hi
    exact getElem?_ys_of_samples (getElem?_derivative_integral_succ ha hb hab)
  · have ha := List.getElem?_eq_getElem (Nat.lt_of_lt_of_le Nat.zero_lt_two hs)
    have hb := List.getElem?_eq_getElem (Nat.lt_of_lt_of_le Nat.one_lt_two hs)
    obtain ⟨v, hv⟩ := exists_getElem?_integral ha
    have hw := getElem?_integral_succ ha hb hv
    have hfirst := getElem?_ys_of_samples (getElem?_derivative_zero hv hw)
    have hsecond := getElem?_ys_of_samples (getElem?_derivative_succ hv hw)
    exact ⟨_, hfirst, hsecond⟩

/-- The positions go back at the last step. Over it the integral falls by six. -/
theorem derivative_undoes_integral_backward :
    let s : Series ℚ := ⟨[⟨1, 2⟩, ⟨4, 6⟩, ⟨2, 0⟩]⟩
    2 ≤ s.size ∧ s.xs.IsChain (· ≠ ·) ∧ s.integral.ys = [0, 12, 6] ∧
      s.integral.derivative.xs = [1, 4, 2] ∧ s.integral.derivative.ys = [4, 4, 3] ∧
      s.trapezoidSum 1 2 = -6 := by
  intro s
  have hs : 2 ≤ s.size := by decide
  have hne : s.xs.IsChain (· ≠ ·) := by
    show [(1 : ℚ), 4, 2].IsChain (· ≠ ·)
    decide
  have hys : s.integral.ys = [0, 12, 6] := by decide +kernel
  have hmeans : s.integral.derivative.ys = [4, 4, 3] := by decide +kernel
  obtain ⟨hx, -, -⟩ := derivative_undoes_integral.1 s hs hne
  obtain ⟨u, v, hu, hv, hsum⟩ := derivative_undoes_integral.2 s 1 2 (by decide) (by decide)
  rw [hys] at hu hv
  cases hu
  cases hv
  exact ⟨hs, hne, hys, hx, hmeans, hsum.symm.trans (by norm_num)⟩

end Exact

end SignalCalc.Series
