import SignalCalc.Proofs.Double.Sign
import SignalCalc.Proofs.Double.Whole
import SignalCalc.Series.Align

/-!
# Positions that match themselves

Where every position matches itself, two series with the same positions have all their samples in
common, each with the one of the same index: nothing is dropped, in whatever order the positions
are. Finite doubles match themselves. They match each other in either order, and of two that do not
match one is the smaller.

Main statements: `Series.commonSamples_eq_zip`, `xMatches_of_beq`, `xMatches_comm_of_isFinite`.
-/

namespace SignalCalc

/-! ## Alignment of equal positions -/

namespace Series

variable {α : Type} [One α] [Sub α] [Mul α] [OfScientific α] [Max α] [LT α] [DecidableLT α]
  [LE α] [DecidableLE α] [Elementary α]

/-- If every position matches itself, series with the same positions have all their samples in
common, each with the one of the same index. -/
theorem commonSamples_eq_zip {as bs : List (Sample α)}
    (h : as.map (·.x) = bs.map (·.x)) (hm : ∀ a ∈ as, xMatches a.x a.x = true) :
    commonSamples as bs = as.zip bs := by
  induction as generalizing bs with
  | nil => simp
  | cons a as ih =>
    cases bs with
    | nil => cases h
    | cons b bs =>
      simp only [List.map_cons, List.cons.injEq] at h
      obtain ⟨ha, hm⟩ := List.forall_mem_cons.1 hm
      rw [commonSamples, ← h.1, if_pos ha, ih h.2 hm]
      rfl

/-- Series with the same positions are combined index by index. -/
theorem combine_of_xs_eq {s t : Series α} (h : s.xs = t.xs)
    (hm : ∀ x ∈ s.xs, xMatches x x = true) (f : α → α → α) :
    (s.combine t f).xs = s.xs ∧ (s.combine t f).ys = List.zipWith f s.ys t.ys := by
  have hc := commonSamples_eq_zip h fun a ha => hm _ (List.mem_map_of_mem ha)
  have hl : s.samples.length = t.samples.length := by
    simpa [xs] using congrArg List.length h
  have hz : (s.samples.zip t.samples).map (·.1) = s.samples := List.map_fst_zip (by omega)
  constructor
  · have hx := congrArg (List.map (·.x)) hz
    rw [List.map_map] at hx
    rw [combine, hc, xs, List.map_map, xs, ← hx]
    rfl
  · simp [combine, hc, ys, List.zip_eq_zipWith, List.map_zipWith, List.zipWith_map]

/-- Series with the same positions are aligned as they are. -/
theorem align_of_xs_eq {s t : Series α} (h : s.xs = t.xs)
    (hm : ∀ x ∈ s.xs, xMatches x x = true) : s.align t = (s, t) := by
  have hc := commonSamples_eq_zip h fun a ha => hm _ (List.mem_map_of_mem ha)
  have hl : s.samples.length = t.samples.length := by
    simpa [xs] using congrArg List.length h
  refine Prod.ext (Series.ext ?_) (Series.ext ?_)
  · simp only [align, hc]
    exact List.map_fst_zip (by omega)
  · simp only [align, hc]
    refine List.ext_getElem (by simp [hl]) fun i hi hi' => ?_
    have hx : s.samples[i].x = t.samples[i].x := by
      simpa [xs] using List.getElem_of_eq h (by simpa [xs, hl] using hi' : i < s.xs.length)
    simp [hx]

end Series

/-! ## Doubles -/

section Doubles

variable {x y : Float}

/-- Equal magnitudes are the same double: none of them is a negative zero. -/
theorem abs_eq_abs_of_beq (h : (x.abs == y.abs) = true) : x.abs = y.abs := by
  have hne (z : Float) : z.abs ≠ -0 := by
    intro hz
    have hu := Double.unpacked_abs z
    rw [hz, Double.unpacked_neg, Double.unpacked_zero] at hu
    cases hv : Double.unpacked z <;> rw [hv] at hu <;> cases hu
  obtain ⟨-, -, h | ⟨-, hy⟩ | ⟨hx, -⟩⟩ := Float.beq_iff_ne_nan_and_eq.1 h
  · exact h
  · exact absurd hy (hne y)
  · exact absurd hx (hne x)

variable (hx : isFinite x = true)

include hx

/-- Finite positions that are equal as numbers match: the distance is zero, and the tolerance is not
negative. -/
theorem xMatches_of_beq (h : (x == y) = true) : xMatches x y = true := by
  have hmax (a b : Float) : max a b = a ∨ max a b = b := by
    show (if a ≤ b then b else a) = a ∨ (if a ≤ b then b else a) = b
    split <;> simp
  have hz : ∀ z : Float, z = x.abs ∨ z = y.abs ∨ z = 1 → 0 ≤ z ∧ isFinite z = true := by
    rintro z (rfl | rfl | rfl)
    · exact ⟨Double.zero_le_abs hx, Double.isFinite_abs hx⟩
    · have hy := Double.isFinite_of_beq hx h
      exact ⟨Double.zero_le_abs hy, Double.isFinite_abs hy⟩
    · exact ⟨by decide, by decide⟩
  obtain ⟨h₀, h₁⟩ := hz (max (max x.abs y.abs) 1) (by
    rcases hmax (max x.abs y.abs) 1 with he | he
    · rcases hmax x.abs y.abs with he' | he'
      · exact .inl (he.trans he')
      · exact .inr (.inl (he.trans he'))
    · exact .inr (.inr he))
  have ht : (0 : Float) ≤ matchTolerance ∧ isFinite (matchTolerance : Float) = true := by decide
  exact decide_eq_true ((Double.isZero_sub hx h).abs_le (Double.mul_nonneg ht.1 h₀ ht.2 h₁))

/-- A finite position matches itself. -/
theorem xMatches_self : xMatches x x = true := by
  refine xMatches_of_beq hx ?_
  rw [Double.beq_iff_value hx hx]

variable (hy : isFinite y = true)

include hy

/-- The greater magnitude is found in either order. -/
theorem max_abs_comm : max x.abs y.abs = max y.abs x.abs := by
  have hle := Double.le_iff_value (Double.isFinite_abs hx) (Double.isFinite_abs hy)
  have hle' := Double.le_iff_value (Double.isFinite_abs hy) (Double.isFinite_abs hx)
  show (if x.abs ≤ y.abs then y.abs else x.abs) = if y.abs ≤ x.abs then x.abs else y.abs
  split
  · next h =>
    split
    · next h' =>
      have hvalue := le_antisymm (hle.1 h) (hle'.1 h')
      exact (abs_eq_abs_of_beq
        ((Double.beq_iff_value (Double.isFinite_abs hx) (Double.isFinite_abs hy)).2 hvalue)).symm
    · rfl
  · next h =>
    rw [if_pos]
    rw [hle, not_le] at h
    exact hle'.2 h.le

/-- Finite positions match in either order. -/
theorem xMatches_comm_of_isFinite : xMatches x y = xMatches y x := by
  have habs : (x - y).abs = (y - x).abs := (Double.isOpposite_sub y x).abs_eq
  have hmax := max_abs_comm hx hy
  show decide ((x - y).abs ≤ matchTolerance * max (max x.abs y.abs) 1) =
    decide ((y - x).abs ≤ matchTolerance * max (max y.abs x.abs) 1)
  rw [habs, hmax]

/-- Of two finite positions that do not match one is the smaller. -/
theorem lt_iff_not_lt_of_not_xMatches (h : ¬xMatches x y = true) : x < y ↔ ¬y < x := by
  have hne : Double.value x ≠ Double.value y := by
    intro hvalue
    exact h (xMatches_of_beq hx ((Double.beq_iff_value hx hy).2 hvalue))
  rw [Double.lt_iff_value hx hy, Double.lt_iff_value hy hx, not_lt]
  exact ⟨le_of_lt, fun hle => lt_of_le_of_ne hle hne⟩

end Doubles

end SignalCalc
