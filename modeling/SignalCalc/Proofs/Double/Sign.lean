import SignalCalc.Proofs.Double.Arithmetic

/-!
# Signs of doubles

Rounding to the nearest double does not look at the sign, so negation goes through products, and a
difference is a sum with the negative. It goes through sums, too, but for one case: terms that
cancel leave a positive zero, whatever their signs are. `IsOpposite` therefore does not look at the
signs of zeros. It is kept by sums, and opposite numbers have the same magnitude and the same
square.

Main statements: `add_comm`, `neg_mul`, `isOpposite_sub`, `IsOpposite.add`.
-/

namespace SignalCalc.Double

open Float.Model Float.Model.UnpackedFloat

/-! ## Packing -/

/-- The other sign bit gives the form with the sign changed. -/
theorem ofFields_neg (s : Sign) (e m : Nat) : ofFields (-s) e m = (ofFields s e m).neg := by
  unfold ofFields
  split
  · split <;> rfl
  · split
    · split <;> rfl
    · rfl

/-- The negative of a form is packed as the negative, whether the form overflows or not. -/
theorem unpack_pack_neg (u : UnpackedFloat) :
    (Float.Model.pack u.neg).unpack = (Float.Model.pack u).unpack.neg := by
  cases u with
  | notANumber => rfl
  | infinity s | zero s => cases s <;> rfl
  | finite s m e hm =>
    show UnpackedFloat.unpack Format.binary64
        (UnpackedFloat.pack Format.binary64 (.finite (-s) m e hm)) =
      (UnpackedFloat.unpack Format.binary64
        (UnpackedFloat.pack Format.binary64 (.finite s m e hm))).neg
    rw [pack_finite, pack_finite]
    split
    · rw [packedInfinity, packedInfinity, unpack_packComponents, unpack_packComponents,
        ofFields_neg]
    · split <;> rw [unpack_packComponents, unpack_packComponents, ofFields_neg]

/-! ## Products and sums of forms -/

/-- Rounding does not look at the sign. -/
theorem roundWithAccuracy_neg (s : Sign) (m : Nat) (e : Int) (a : Accuracy) :
    roundWithAccuracy Format.binary64 (-s) m e a =
      (roundWithAccuracy Format.binary64 s m e a).neg := by
  simp only [roundWithAccuracy]
  split <;> rfl

/-- The sign of the first factor is the sign of the product. -/
theorem neg_mul_form (u v : UnpackedFloat) :
    UnpackedFloat.mul Format.binary64 u.neg v = (UnpackedFloat.mul Format.binary64 u v).neg := by
  have hs (s t : Sign) : -s * t = -(s * t) := by cases s <;> cases t <;> rfl
  cases u with
  | notANumber => rfl
  | infinity s | zero s =>
    cases v <;> first | rfl | simp only [UnpackedFloat.mul, UnpackedFloat.neg, hs]
  | finite s m e hm =>
    cases v with
    | notANumber => rfl
    | infinity t | zero t => simp only [UnpackedFloat.mul, UnpackedFloat.neg, hs]
    | finite t n f hn =>
      simp only [UnpackedFloat.mul, UnpackedFloat.neg, hs]
      exact roundWithAccuracy_neg _ _ _ _

/-- A number other than zero is rounded without regard to its sign. -/
theorem normalize_neg {m : Int} (hm : m ≠ 0) (e : Int) :
    UnpackedFloat.normalize Format.binary64 (-m) e .positive =
      (UnpackedFloat.normalize Format.binary64 m e .positive).neg := by
  rcases lt_or_gt_of_ne hm with h | h
  · simp only [UnpackedFloat.normalize, compare_lt_iff_lt.2 h, compare_gt_iff_gt.2 (neg_pos.2 h)]
    exact roundWithAccuracy_neg .negative _ _ _
  · simp only [UnpackedFloat.normalize, compare_gt_iff_gt.2 h,
      compare_lt_iff_lt.2 (neg_lt_zero.2 h), Int.neg_neg]
    exact roundWithAccuracy_neg .positive _ _ _

/-- The opposite sign gives the opposite integer. -/
theorem apply_neg (s : Sign) (k : Int) : (-s).apply k = -s.apply k := by
  cases s with
  | negative => exact (Int.neg_neg k).symm
  | positive => rfl

/-- The sum of the negatives is the negative of the sum, or both are zeros. -/
theorem add_neg_form (u v : UnpackedFloat) :
    UnpackedFloat.add Format.binary64 u.neg v.neg = (UnpackedFloat.add Format.binary64 u v).neg ∨
      (∃ s, UnpackedFloat.add Format.binary64 u v = .zero s) ∧
        ∃ s, UnpackedFloat.add Format.binary64 u.neg v.neg = .zero s := by
  cases u with
  | notANumber => exact .inl rfl
  | infinity s =>
    cases v with
    | infinity t => cases s <;> cases t <;> exact .inl rfl
    | notANumber | zero t | finite t n f hn => exact .inl rfl
  | zero s =>
    cases v with
    | zero t => cases s <;> cases t <;> exact .inr ⟨⟨_, rfl⟩, _, rfl⟩
    | notANumber | infinity t | finite t n f hn => exact .inl rfl
  | finite s m e hm =>
    cases v with
    | notANumber | infinity t | zero t => exact .inl rfl
    | finite t n f hn =>
      simp only [UnpackedFloat.add, UnpackedFloat.neg, apply_neg, ← Int.neg_add]
      generalize s.apply _ + t.apply _ = total
      rcases eq_or_ne total 0 with rfl | h
      · exact .inr ⟨⟨_, rfl⟩, _, rfl⟩
      · exact .inl (normalize_neg h _)

/-! ## Doubles -/

/-- Sums of doubles do not depend on the order of the terms, rounding included. -/
protected theorem add_comm (x y : Float) : x + y = y + x := by
  have hs (s t : Sign) : (s == t) = (t == s) := by cases s <;> cases t <;> rfl
  have hu (u v : UnpackedFloat) :
      UnpackedFloat.add Format.binary64 u v = UnpackedFloat.add Format.binary64 v u := by
    cases u with
    | notANumber => cases v <;> rfl
    | infinity s =>
      cases v with
      | infinity t => cases s <;> cases t <;> rfl
      | notANumber | zero t | finite t n f hn => rfl
    | zero s =>
      cases v with
      | zero t => cases s <;> cases t <;> rfl
      | notANumber | infinity t | finite t n f hn => rfl
    | finite s m e hm =>
      cases v with
      | notANumber | infinity t | zero t => rfl
      | finite t n f hn => simp only [UnpackedFloat.add, Int.min_comm e f, Int.add_comm]
  exact congrArg (fun u => Float.ofModel (Float.Model.pack u)) (hu (unpacked x) (unpacked y))

/-- Negation goes through products. -/
protected theorem neg_mul (x y : Float) : -x * y = -(x * y) := by
  refine unpacked_injective ?_
  have hproduct : unpacked (-x * y) =
      (Float.Model.pack (UnpackedFloat.mul Format.binary64 (unpacked (-x)) (unpacked y))).unpack :=
    rfl
  rw [hproduct, unpacked_neg, neg_mul_form, unpack_pack_neg, unpacked_neg]
  rfl

/-- The sign of the second factor is the sign of the product. -/
protected theorem mul_neg (x y : Float) : x * -y = -(x * y) := by
  rw [mul_comm, Double.neg_mul, mul_comm y]

/-- A difference is the sum with the negative. -/
protected theorem sub_eq_add_neg (x y : Float) : x - y = x + -y := by
  have hu (u v : UnpackedFloat) :
      UnpackedFloat.sub Format.binary64 u v = UnpackedFloat.add Format.binary64 u v.neg := by
    cases u with
    | notANumber => rfl
    | infinity s =>
      cases v with
      | infinity t => cases s <;> cases t <;> rfl
      | notANumber | zero t | finite t n f hn => rfl
    | zero s =>
      cases v with
      | zero t => cases s <;> cases t <;> rfl
      | notANumber | infinity t | finite t n f hn => rfl
    | finite s m e hm =>
      cases v with
      | notANumber | infinity t | zero t => rfl
      | finite t n f hn =>
        simp only [UnpackedFloat.sub, UnpackedFloat.add, UnpackedFloat.neg, apply_neg,
          Int.sub_eq_add_neg]
  have hsum : x + -y = Float.ofModel (Float.Model.pack
      (UnpackedFloat.add Format.binary64 (unpacked x) (unpacked (-y)))) := rfl
  rw [hsum, unpacked_neg, ← hu]
  rfl

/-! ## Opposite numbers -/

/-- The second number is the negative of the first, or both are zeros. -/
def IsOpposite (x y : Float) : Prop := y = -x ∨ IsZero x ∧ IsZero y

/-- What is not zero is not zero with its sign changed. -/
theorem not_isZero_neg {x : Float} (h : ¬IsZero x) : ¬IsZero (-x) := by
  intro hneg
  have hx := hneg.neg
  rw [neg_neg] at hx
  exact h hx

/-- Sums of negatives are opposite. They are zeros where the terms cancel. -/
theorem isOpposite_neg_add (x y : Float) : IsOpposite (x + y) (-x + -y) := by
  have hneg : unpacked (-x + -y) = (Float.Model.pack
      (UnpackedFloat.add Format.binary64 (unpacked (-x)) (unpacked (-y)))).unpack := rfl
  rw [unpacked_neg, unpacked_neg] at hneg
  rcases add_neg_form (unpacked x) (unpacked y) with h | ⟨⟨s, h⟩, t, h'⟩
  · refine .inl (unpacked_injective ?_)
    rw [hneg, h, unpack_pack_neg, unpacked_neg]
    rfl
  · refine .inr ⟨⟨s, unpacked_add h trivial⟩, t, ?_⟩
    rw [hneg, h']
    exact unpack_pack trivial

/-- A difference in the other order. -/
theorem isOpposite_sub (x y : Float) : IsOpposite (x - y) (y - x) := by
  have h := isOpposite_neg_add x (-y)
  rwa [neg_neg, Double.add_comm (-x) y, ← Double.sub_eq_add_neg, ← Double.sub_eq_add_neg] at h

namespace IsOpposite

variable {x x' y y' : Float}

/-- Sums keep numbers opposite: a zero does not change the other term, whatever its sign is. -/
theorem add (h : IsOpposite x x') (h' : IsOpposite y y') : IsOpposite (x + y) (x' + y') := by
  rcases h with rfl | ⟨hx, hx'⟩
  · rcases h' with rfl | ⟨hy, hy'⟩
    · exact isOpposite_neg_add x y
    · by_cases hx : IsZero x
      · exact .inr ⟨hx.add hy, hx.neg.add hy'⟩
      · rw [hy.eq_add hx, hy'.eq_add (not_isZero_neg hx)]
        exact .inl rfl
  · rcases h' with rfl | ⟨hy, hy'⟩
    · by_cases hy : IsZero y
      · exact .inr ⟨hx.add hy, hx'.add hy.neg⟩
      · rw [hx.add_eq hy, hx'.add_eq (not_isZero_neg hy)]
        exact .inl rfl
    · exact .inr ⟨hx.add hy, hx'.add hy'⟩

/-- Opposite numbers have the same square. -/
theorem mul_self (h : IsOpposite x x') : x' * x' = x * x := by
  rcases h with rfl | ⟨⟨s, hs⟩, t, ht⟩
  · rw [Double.neg_mul, Double.mul_neg, neg_neg]
  · have hzero (s : Sign) : s * s = .positive := by cases s <;> rfl
    have hsquare {z : Float} {s : Sign} (hz : unpacked z = .zero s) :
        unpacked (z * z) = .zero .positive :=
      unpacked_mul (by rw [hz, UnpackedFloat.mul, hzero]) trivial
    exact unpacked_injective ((hsquare ht).trans (hsquare hs).symm)

/-- Opposite numbers have the same magnitude. -/
theorem abs_eq (h : IsOpposite x x') : x'.abs = x.abs := by
  refine unpacked_injective ?_
  rw [unpacked_abs, unpacked_abs]
  rcases h with rfl | ⟨⟨s, hs⟩, t, ht⟩
  · rw [unpacked_neg]
    cases unpacked x <;> rfl
  · rw [hs, ht]
    rfl

end IsOpposite

end SignalCalc.Double
