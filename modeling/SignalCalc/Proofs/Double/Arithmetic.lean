import SignalCalc.Proofs.Double.Packing

/-!
# Arithmetic on doubles

What the core operations do to the unpacked forms of doubles, as far as sums with zeros, products
with one, signs and comparisons go. These are the only laws of doubles that hold without rounding
errors.

Main definitions: `unpacked`, `IsZero`. Main statements: `mul_one`, `IsZero.add_eq`, `isFinite_iff`.
-/

namespace SignalCalc.Double

open Float.Model Float.Model.UnpackedFloat

/-! ## Unpacked forms -/

/-- The unpacked form of a double. -/
def unpacked (x : Float) : UnpackedFloat := x.toModel.unpack

/-- A double is determined by its unpacked form. -/
theorem unpacked_injective {x y : Float} (h : unpacked x = unpacked y) : x = y := by
  have hb := (unpack_inj_of_valid x.toModel.valid y.toModel.valid).1 h
  exact Float.toBits_inj.1 (UInt64.toBitVec_inj.1 hb)

/-- The unpacked form of a double is canonical. -/
theorem isCanonical_unpacked (x : Float) : IsCanonical (unpacked x) := isCanonical_unpack x.toModel

/-- A change of sign keeps a form canonical. -/
theorem IsCanonical.neg {u : UnpackedFloat} (h : IsCanonical u) : IsCanonical u.neg := by
  cases u <;> exact h

/-- The magnitude of a canonical form is canonical. -/
theorem IsCanonical.abs {u : UnpackedFloat} (h : IsCanonical u) : IsCanonical u.abs := by
  cases u <;> exact h

@[simp] theorem unpacked_neg (x : Float) : unpacked (-x) = (unpacked x).neg :=
  unpack_pack (isCanonical_unpacked x).neg

@[simp] theorem unpacked_abs (x : Float) : unpacked x.abs = (unpacked x).abs :=
  unpack_pack (isCanonical_unpacked x).abs

/-- The sum of two doubles has the sum of their forms, if that is canonical already. -/
theorem unpacked_add {x y : Float} {u : UnpackedFloat}
    (h : UnpackedFloat.add Format.binary64 (unpacked x) (unpacked y) = u) (hu : IsCanonical u) :
    unpacked (x + y) = u := by
  subst h
  exact unpack_pack hu

/-- The difference of two doubles has the difference of their forms, if that is canonical already.
-/
theorem unpacked_sub {x y : Float} {u : UnpackedFloat}
    (h : UnpackedFloat.sub Format.binary64 (unpacked x) (unpacked y) = u) (hu : IsCanonical u) :
    unpacked (x - y) = u := by
  subst h
  exact unpack_pack hu

/-- The product of two doubles has the product of their forms, if that is canonical already. -/
theorem unpacked_mul {x y : Float} {u : UnpackedFloat}
    (h : UnpackedFloat.mul Format.binary64 (unpacked x) (unpacked y) = u) (hu : IsCanonical u) :
    unpacked (x * y) = u := by
  subst h
  exact unpack_pack hu

/-- The form of zero. -/
theorem unpacked_zero : unpacked 0 = .zero .positive := rfl

/-- The form of one, with all 53 bits of its mantissa. -/
theorem unpacked_one : unpacked 1 = .finite .positive (2 ^ 52) (-52) (by decide) := rfl

/-! ## Rounding -/

/-- Shifting as many zeros out of a mantissa as were shifted in gives the mantissa back. -/
theorem shiftRight_scaled (m k : Nat) :
    (⟨m * 2 ^ k, false, false⟩ : ExtendedMantissa) >>> k = ⟨m, false, false⟩ := by
  show Nat.repeat ExtendedMantissa.shiftRightOne k ⟨m * 2 ^ k, false, false⟩ = ⟨m, false, false⟩
  induction k generalizing m with
  | zero => simp [Nat.repeat]
  | succ k ih =>
    have h := ih (m * 2)
    rw [Nat.mul_assoc, ← Nat.pow_succ'] at h
    rw [Nat.repeat, h]
    simp [ExtendedMantissa.shiftRightOne]

/-- A power of two as a factor adds its exponent to the logarithm. -/
theorem log2_mul_pow {m : Nat} (hm : 0 < m) (k : Nat) : (m * 2 ^ k).log2 = m.log2 + k := by
  obtain ⟨hlo, hhi⟩ := (Nat.log2_eq_iff (Nat.ne_of_gt hm)).1 rfl
  refine (Nat.log2_eq_iff (Nat.mul_ne_zero (Nat.ne_of_gt hm) (by simp))).2 ⟨?_, ?_⟩
  · rw [Nat.pow_add]
    exact Nat.mul_le_mul_right _ hlo
  · rw [Nat.add_right_comm, Nat.pow_add]
    exact Nat.mul_lt_mul_of_pos_right hhi (Nat.two_pow_pos k)

/-- The exponent of a canonical number is the one to which rounding brings every multiple of it by a
power of two. -/
theorem targetExponent_scaled {m : Nat} {e : Int} (hm : 0 < m)
    (h : m < 2 ^ 53 ∧ -1074 ≤ e ∧ e ≤ 971 ∧ (2 ^ 52 ≤ m ∨ e = -1074)) (k : Nat) :
    Format.binary64.targetExponent (totalExponent (m * 2 ^ k) (e - k)) = e := by
  obtain ⟨h₁, h₂, -, h₄⟩ := h
  have hu : m.log2 < 53 := (Nat.log2_lt (by omega)).2 h₁
  have hn : 2 ^ 52 ≤ m → 52 ≤ m.log2 := (Nat.le_log2 (by omega)).2
  show max ((((m * 2 ^ k).log2 : Int) + 1 + (e - k)) - (1 + 52 : Nat)) (-1074) = e
  rw [log2_mul_pow hm]
  rcases h₄ with h₄ | h₄
  · have := hn h₄
    omega
  · omega

/-- A multiple of a canonical number by a power of two is rounded to the number. -/
theorem round_scaled (s : Sign) {m : Nat} {e : Int} (hm : 0 < m)
    (h : m < 2 ^ 53 ∧ -1074 ≤ e ∧ e ≤ 971 ∧ (2 ^ 52 ≤ m ∨ e = -1074)) (k : Nat) :
    roundWithAccuracy Format.binary64 s (m * 2 ^ k) (e - k) .exact = .finite s m e hm := by
  have h₁ : shiftToTargetExponent Format.binary64 (m * 2 ^ k) (e - k) .exact =
      (⟨m, false, false⟩, e) := by
    have ht : (e - (e - k)).toNat = k := by omega
    simp only [shiftToTargetExponent, targetExponent_scaled hm h, shiftToExponent,
      ExtendedMantissa.ofMantissaAndAccuracy, ht, shiftRight_scaled]
    congr 1
    omega
  have h₂ : shiftToTargetExponent Format.binary64 m e .exact = (⟨m, false, false⟩, e) := by
    have ht := targetExponent_scaled hm h 0
    have hs := shiftRight_scaled m 0
    simp only [Nat.pow_zero, Nat.mul_one, Int.ofNat_zero, Int.sub_zero] at ht hs
    simp only [shiftToTargetExponent, ht, shiftToExponent,
      ExtendedMantissa.ofMantissaAndAccuracy, Int.sub_self, Int.toNat_zero, hs]
    simp
  have hr : ExtendedMantissa.roundedMantissa ⟨m, false, false⟩ = m := rfl
  -- The mantissa is shifted twice. The first shift makes it exact, so the second one is empty.
  simp only [roundWithAccuracy, h₁, hr, h₂]
  exact dif_neg (by omega)

/-! ## Products with one -/

/-- A product with one or its negative is not rounded: it has the magnitude of the other factor. -/
theorem mul_unit {u : UnpackedFloat} (hc : IsCanonical u) (t : Sign) (h : 0 < 2 ^ 52) :
    UnpackedFloat.mul Format.binary64 u (.finite t (2 ^ 52) (-52) h) =
      match t with
      | .positive => u
      | .negative => u.neg := by
  cases u with
  | notANumber | infinity s | zero s => cases t <;> first | rfl | (cases s <;> rfl)
  | finite s m e hm =>
    have hr : UnpackedFloat.mul Format.binary64 (.finite s m e hm) (.finite t (2 ^ 52) (-52) h) =
        .finite (s * t) m e hm := round_scaled (s * t) hm hc 52
    rw [hr]
    cases s <;> cases t <;> rfl

/-- One is neutral. -/
theorem mul_one (x : Float) : x * 1 = x := by
  refine unpacked_injective (unpacked_mul ?_ (isCanonical_unpacked x))
  rw [unpacked_one]
  exact mul_unit (isCanonical_unpacked x) .positive _

/-- Products of doubles do not depend on the order of the factors, rounding included. -/
theorem mul_comm (x y : Float) : x * y = y * x := by
  have hs (s t : Sign) : s * t = t * s := by cases s <;> cases t <;> rfl
  have hu (u v : UnpackedFloat) :
      UnpackedFloat.mul Format.binary64 u v = UnpackedFloat.mul Format.binary64 v u := by
    cases u <;> cases v <;> simp [UnpackedFloat.mul, hs, Nat.mul_comm, Int.add_comm]
  exact congrArg (fun u => Float.ofModel (Float.Model.pack u)) (hu (unpacked x) (unpacked y))

/-- One is neutral from the left, too. -/
theorem one_mul (x : Float) : 1 * x = x := by rw [mul_comm, mul_one]

/-- The product with the negative of one is the negative. -/
theorem mul_neg_one (x : Float) : x * -1 = -x := by
  refine unpacked_injective ?_
  rw [unpacked_neg]
  refine unpacked_mul ?_ (isCanonical_unpacked x).neg
  rw [unpacked_neg, unpacked_one]
  exact mul_unit (isCanonical_unpacked x) .negative _

/-- Twice the negative is the number itself. -/
theorem neg_neg (x : Float) : - -x = x := by
  refine unpacked_injective ?_
  rw [unpacked_neg, unpacked_neg]
  cases unpacked x with
  | notANumber => rfl
  | infinity s | zero s | finite s m e hm => cases s <;> rfl

/-! ## Zeros -/

/-- A double is one of the two zeros. -/
def IsZero (x : Float) : Prop := ∃ s, unpacked x = .zero s

/-- Zero is one of the zeros. -/
theorem isZero_zero : IsZero 0 := ⟨_, unpacked_zero⟩

/-- One is not one of the zeros. -/
theorem not_isZero_one : ¬IsZero 1 := by
  rintro ⟨s, h⟩
  rw [unpacked_one] at h
  cases h

/-- Doubles are compared by their forms. -/
theorem lt_iff {x y : Float} : x < y ↔ (unpacked x).lt (unpacked y) = true := by
  show decide ((unpacked x).lt (unpacked y) = true) = true ↔ _
  rw [decide_eq_true_iff]

/-- Doubles are equal as numbers if their forms compare as equal. Both zeros do. -/
theorem beq_iff {x y : Float} :
    (x == y) = true ↔ (unpacked x).compare (unpacked y) = some .eq := by
  show ((unpacked x).compare (unpacked y) == some .eq) = true ↔ _
  rw [beq_iff_eq]

/-- The test for zero finds both zeros, and nothing else. -/
theorem beq_zero_iff {x : Float} : (x == 0) = true ↔ IsZero x := by
  rw [beq_iff, unpacked_zero, IsZero]
  cases h : unpacked x with
  | notANumber => simp [UnpackedFloat.compare]
  | infinity s | finite s m e hm => cases s <;> simp [UnpackedFloat.compare]
  | zero s => simp [UnpackedFloat.compare]

/-- A zero with its sign changed is a zero. -/
theorem IsZero.neg {x : Float} (h : IsZero x) : IsZero (-x) := by
  obtain ⟨s, h⟩ := h
  exact ⟨-s, by rw [unpacked_neg, h]; rfl⟩

/-- A zero is neutral for what is no zero. -/
theorem IsZero.add_eq {x y : Float} (h : IsZero x) (hy : ¬IsZero y) : x + y = y := by
  obtain ⟨s, h⟩ := h
  refine unpacked_injective (unpacked_add ?_ (isCanonical_unpacked y))
  rw [h]
  cases hu : unpacked y with
  | zero t => exact absurd ⟨t, hu⟩ hy
  | notANumber | infinity t | finite t m e hm => rfl

/-- A zero on the right leaves a number as it is, unless the number is the other zero. -/
theorem IsZero.eq_add {x y : Float} (h : IsZero y) (hx : ¬IsZero x) : x + y = x := by
  obtain ⟨s, h⟩ := h
  refine unpacked_injective (unpacked_add ?_ (isCanonical_unpacked x))
  rw [h]
  cases hu : unpacked x with
  | zero t => exact absurd ⟨t, hu⟩ hx
  | notANumber | infinity t | finite t m e hm => rfl

/-- A sum of zeros is a zero. -/
theorem IsZero.add {x y : Float} (h : IsZero x) (h' : IsZero y) : IsZero (x + y) := by
  obtain ⟨s, h⟩ := h
  obtain ⟨t, h'⟩ := h'
  cases s <;> cases t <;> exact ⟨_, unpacked_add (by rw [h, h']; rfl) trivial⟩

/-- A magnitude is zero if the number is. -/
theorem isZero_abs_iff {x : Float} : IsZero x.abs ↔ IsZero x := by
  simp only [IsZero, unpacked_abs]
  cases unpacked x <;> simp [UnpackedFloat.abs]

/-! ## Finite numbers -/

/-- Numbers without a distance from themselves are the finite ones. -/
theorem isFinite_iff {x : Float} : isFinite x = true ↔ (unpacked x).isFinite = true := by
  have hsub : isFinite x = true ↔ IsZero (x - x) := beq_zero_iff
  rw [hsub]
  cases h : unpacked x with
  | notANumber | infinity s =>
    have hu : unpacked (x - x) = .notANumber := by
      refine unpacked_sub ?_ trivial
      rw [h]
      first | rfl | (cases s <;> rfl)
    simp [IsZero, hu, UnpackedFloat.isFinite]
  | zero s =>
    have hu : unpacked (x - x) = .zero .positive := by
      refine unpacked_sub ?_ trivial
      rw [h]
      cases s <;> rfl
    exact ⟨fun _ => rfl, fun _ => ⟨_, hu⟩⟩
  | finite s m e hm =>
    have hu : unpacked (x - x) = .zero .positive := by
      refine unpacked_sub ?_ trivial
      simp only [h, UnpackedFloat.sub, UnpackedFloat.normalize, Int.sub_self]
      rfl
    exact ⟨fun _ => rfl, fun _ => ⟨_, hu⟩⟩

/-- Numbers that are not finite are undefined or infinite. -/
theorem isFinite_eq_false_iff {x : Float} :
    isFinite x = false ↔ x.isNaN = true ∨ x.isInf = true := by
  have hnan : x.isNaN = (unpacked x).isNaN := rfl
  have hinf : x.isInf = (unpacked x).isInf := rfl
  rw [← Bool.not_eq_true, isFinite_iff, hnan, hinf]
  cases unpacked x <;> simp [UnpackedFloat.isFinite, UnpackedFloat.isNaN, UnpackedFloat.isInf]

/-- Both zeros are finite. -/
theorem isFinite_of_isZero {x : Float} (h : IsZero x) : isFinite x = true := by
  obtain ⟨s, h⟩ := h
  rw [isFinite_iff, h]
  rfl

/-- A zero times a finite number is a zero. Times an infinity it is undefined. -/
theorem IsZero.mul {x y : Float} (h : IsZero x) (hy : isFinite y = true) : IsZero (x * y) := by
  rw [isFinite_iff] at hy
  obtain ⟨s, h⟩ := h
  cases hu : unpacked y with
  | notANumber | infinity t => rw [hu] at hy; cases hy
  | zero t | finite t m e hm => exact ⟨_, unpacked_mul (by rw [h, hu]; rfl) trivial⟩

/-- A finite number times a zero is a zero. -/
theorem IsZero.of_mul {x y : Float} (h : IsZero y) (hx : isFinite x = true) : IsZero (x * y) := by
  rw [mul_comm]
  exact h.mul hx

/-! ## Signs -/

/-- The magnitude of a negative number is its negative. -/
theorem abs_of_neg {x : Float} (h : x < 0) : x.abs = -x := by
  rw [lt_iff, unpacked_zero] at h
  refine unpacked_injective ?_
  rw [unpacked_abs, unpacked_neg]
  cases hu : unpacked x with
  | notANumber => rw [hu] at h; cases h
  | zero s => rw [hu] at h; cases h
  | infinity s | finite s m e hm =>
    cases s with
    | negative => rfl
    | positive => rw [hu] at h; cases h

/-- The magnitude of a number that is neither negative nor zero is the number. -/
theorem abs_of_not_neg {x : Float} (h : ¬x < 0) (hx : ¬IsZero x) : x.abs = x := by
  rw [lt_iff, unpacked_zero] at h
  refine unpacked_injective ?_
  rw [unpacked_abs]
  cases hu : unpacked x with
  | notANumber => rfl
  | zero s => exact absurd ⟨s, hu⟩ hx
  | infinity s | finite s m e hm =>
    cases s with
    | negative => rw [hu] at h; exact absurd rfl h
    | positive => rfl

/-- Equal numbers are the same double, zeros excepted. -/
theorem eq_of_beq {x y : Float} (h : (x == y) = true) (hx : ¬IsZero x) : x = y := by
  obtain ⟨-, -, h | ⟨rfl, -⟩ | ⟨rfl, -⟩⟩ := Float.beq_iff_ne_nan_and_eq.1 h
  · exact h
  · exact absurd isZero_zero hx
  · exact absurd isZero_zero.neg hx

/-! ## Numbers that are not negative -/

/-- Doubles are compared by their forms, equality included. -/
theorem le_iff {x y : Float} : x ≤ y ↔ (unpacked x).le (unpacked y) = true := by
  show decide ((unpacked x).le (unpacked y) = true) = true ↔ _
  rw [decide_eq_true_iff]

/-- Zero, or of positive sign. -/
def IsNonneg : UnpackedFloat → Prop
  | .notANumber => False
  | .zero _ => True
  | .infinity s | .finite s _ _ _ => s = .positive

/-- The numbers from zero on are the zeros and what has a positive sign. -/
theorem zero_le_iff {x : Float} : 0 ≤ x ↔ IsNonneg (unpacked x) := by
  rw [le_iff, unpacked_zero]
  cases h : unpacked x with
  | notANumber => simp [UnpackedFloat.le, UnpackedFloat.compare, IsNonneg]
  | zero s => simp [UnpackedFloat.le, UnpackedFloat.compare, IsNonneg]
  | infinity s | finite s m e hm =>
    cases s <;> simp [UnpackedFloat.le, UnpackedFloat.compare, IsNonneg]

/-- What is above a number that is not negative is not negative. -/
theorem zero_le_of_lt {x y : Float} (hx : 0 ≤ x) (h : x < y) : 0 ≤ y := by
  rw [zero_le_iff] at *
  rw [lt_iff] at h
  cases hu : unpacked x with
  | notANumber => rw [hu] at hx; cases hx
  | zero s | infinity s | finite s m e hm =>
    rw [hu] at hx h
    cases hv : unpacked y with
    | notANumber => rw [hv] at h; cases h
    | zero t => trivial
    | infinity t | finite t n f hn =>
      cases t with
      | positive => rfl
      | negative =>
        cases hx
        rw [hv] at h
        cases h

/-- The magnitude of a zero is below everything that is not negative. -/
theorem IsZero.abs_le {x y : Float} (h : IsZero x) (hy : 0 ≤ y) : x.abs ≤ y := by
  obtain ⟨s, h⟩ := h
  rw [le_iff, unpacked_abs, h]
  exact le_iff.1 hy

/-- The magnitude of a finite number is not negative. -/
theorem zero_le_abs {x : Float} (h : isFinite x = true) : 0 ≤ x.abs := by
  rw [isFinite_iff] at h
  rw [zero_le_iff, unpacked_abs]
  cases hu : unpacked x with
  | notANumber => rw [hu] at h; cases h
  | zero s => trivial
  | infinity s | finite s m e hm => rfl

/-- The magnitude of a finite number is finite. -/
theorem isFinite_abs {x : Float} (h : isFinite x = true) : isFinite x.abs = true := by
  rw [isFinite_iff] at *
  rw [unpacked_abs]
  cases hu : unpacked x with
  | notANumber => rw [hu] at h; cases h
  | infinity s => rw [hu] at h; cases h
  | zero s | finite s m e hm => rfl

/-- Packing keeps a positive sign, whether the number overflows or not. -/
theorem isNonneg_pack {m : Nat} (e : Int) (hm : 0 < m) :
    IsNonneg (Float.Model.pack (.finite .positive m e hm)).unpack := by
  have hf (E : BitVec 11) (M : BitVec 52) (h : E.toNat = 2047 → M.toNat = 0) :
      IsNonneg (ofFields .positive E.toNat M.toNat) := by
    unfold ofFields
    split
    · next he =>
      rw [if_pos (h he)]
      rfl
    · split
      · split <;> trivial
      · rfl
  show IsNonneg (UnpackedFloat.unpack Format.binary64 (UnpackedFloat.pack Format.binary64 _))
  rw [pack_finite]
  split
  · rw [packedInfinity, unpack_packComponents]
    exact hf _ _ fun _ => rfl
  · split
    · rw [unpack_packComponents]
      refine hf _ _ fun h => ?_
      rw [BitVec.toNat_ofNat] at h
      omega
    · rw [unpack_packComponents]
      exact hf _ _ nofun

/-- A product of finite numbers that are not negative is not negative. -/
theorem mul_nonneg {x y : Float} (hx : 0 ≤ x) (hy : 0 ≤ y) (hx' : isFinite x = true)
    (hy' : isFinite y = true) : 0 ≤ x * y := by
  rw [zero_le_iff] at *
  rw [isFinite_iff] at hx' hy'
  show IsNonneg
    (Float.Model.pack (UnpackedFloat.mul Format.binary64 (unpacked x) (unpacked y))).unpack
  cases hu : unpacked x with
  | notANumber => rw [hu] at hx'; cases hx'
  | infinity s => rw [hu] at hx'; cases hx'
  | zero s =>
    cases hv : unpacked y with
    | notANumber => rw [hv] at hy'; cases hy'
    | infinity t => rw [hv] at hy'; cases hy'
    | zero t | finite t m e hm =>
      simp only [UnpackedFloat.mul]
      rw [unpack_pack] <;> trivial
  | finite s m e hm =>
    cases hv : unpacked y with
    | notANumber => rw [hv] at hy'; cases hy'
    | infinity t => rw [hv] at hy'; cases hy'
    | zero t =>
      simp only [UnpackedFloat.mul]
      rw [unpack_pack] <;> trivial
    | finite t m' e' hm' =>
      rw [hu] at hx
      rw [hv] at hy
      cases hx
      cases hy
      simp only [UnpackedFloat.mul, roundWithAccuracy]
      split
      · rw [unpack_pack] <;> trivial
      · exact isNonneg_pack _ _

end SignalCalc.Double
