import SignalCalc.Proofs.Double.Value

/-!
# Whole doubles

Natural numbers below `2 ^ 53` are doubles, and their products below that bound are exact
(`ofNat_mul`). Longer ones are rounded, and those of 64 bits keep a product with the rounding error
that is neither zero nor infinite (`value_roundingError_mul_pos`). A double without a fraction is
the natural number that it is rounded to, or it is so great that the rounded number is great too
(`isWhole_roundToNat`). So a bound on a product of a natural number and a whole double can be
checked on either side (`IsWhole.lt_mul_iff`).
-/

namespace SignalCalc.Double

open Float.Model Float.Model.UnpackedFloat

/-! ## Natural numbers -/

/-- The form of a natural number of at most 53 bits. -/
theorem exists_unpacked_toFloat {w : UInt64} (hw : 0 < w.toNat) (h : w.toNat < 2 ^ 53) :
    ∃ (k : ℕ) (hm : _), unpacked w.toFloat = .finite .positive (w.toNat * 2 ^ k) (-k) hm := by
  have hlog : w.toNat.log2 < 53 := (Nat.log2_lt (Nat.ne_of_gt hw)).2 h
  obtain ⟨k, hk⟩ : ∃ k, w.toNat.log2 + k = 52 := ⟨52 - w.toNat.log2, by omega⟩
  have hm : 0 < w.toNat * 2 ^ k := Nat.mul_pos hw (Nat.two_pow_pos k)
  have hlength : (w.toNat * 2 ^ k).log2 = 52 := (log2_mul_pow hw k).trans hk
  obtain ⟨hlow, hhigh⟩ := (Nat.log2_eq_iff (Nat.ne_of_gt hm)).1 hlength
  have hcanonical : IsCanonical (.finite .positive (w.toNat * 2 ^ k) (-k : ℤ) hm) :=
    ⟨hhigh, by omega, by omega, .inl hlow⟩
  have hround := round_scaled .positive hm hcanonical 0
  rw [Nat.pow_zero, Nat.mul_one, Int.ofNat_zero, Int.sub_zero] at hround
  refine ⟨k, hm, Eq.trans (congrArg (fun u => (Float.Model.pack u).unpack) ?_)
    (unpack_pack hcanonical)⟩
  have hpos : compare (w.toNat : ℤ) 0 = .gt := compare_gt_iff_gt.2 (by omega)
  have hshift : (-Format.binary64.targetExponent (totalExponent w.toNat 0)).toNat = k := by
    rw [targetExponent_eq]
    omega
  simp only [UnpackedFloat.ofUInt64, UnpackedFloat.ofNat, UnpackedFloat.ofInt,
    UnpackedFloat.normalize, hpos, UnpackedFloat.round, decreaseExponent, Int.toNat_natCast,
    Int.zero_sub, hshift, Nat.shiftLeft_eq, hround]

/-- Natural numbers of at most 53 bits are doubles. -/
theorem value_toFloat {w : UInt64} (h : w.toNat < 2 ^ 53) :
    isFinite w.toFloat = true ∧ value w.toFloat = w.toNat := by
  rcases Nat.eq_zero_or_pos w.toNat with hw | hw
  · have hzero : w = 0 := UInt64.toNat_inj.1 hw
    rw [isFinite_iff, value, hzero]
    exact ⟨rfl, rfl⟩
  · obtain ⟨k, hm, hu⟩ := exists_unpacked_toFloat hw h
    rw [isFinite_iff, value, hu]
    refine ⟨rfl, ?_⟩
    simp only [formValue, zpow_neg, zpow_natCast]
    push_cast
    exact mul_inv_cancel_right₀ (pow_ne_zero k two_ne_zero) _

/-- A number of 53 bits is converted like the machine word that holds it. -/
theorem ofNat_eq_toFloat {n : Nat} (h : n < 2 ^ 53) : Float.ofNat n = n.toUInt64.toFloat := by
  have hn : Float.ofNat n = n.toUInt64.toFloat * 1 :=
    dif_pos (⟨h, by decide⟩ : n < 2 ^ 53 ∧ 0 ≤ 22)
  rw [hn, mul_one]

/-- A number of 53 bits is converted without loss. -/
theorem value_ofNat {n : Nat} (h : n < 2 ^ 53) :
    isFinite (Float.ofNat n) = true ∧ value (Float.ofNat n) = n := by
  have hn : n.toUInt64.toNat = n := Nat.mod_eq_of_lt (h.trans (by decide))
  have hw := value_toFloat (hn.symm ▸ h : n.toUInt64.toNat < 2 ^ 53)
  rwa [← ofNat_eq_toFloat h, hn] at hw

/-- A longer natural number is rounded. -/
theorem unpacked_ofNat_of_le {n : Nat} (h : 2 ^ 53 ≤ n) :
    unpacked (Float.ofNat n) = (Float.Model.pack
      (roundWithAccuracy Format.binary64 .positive (n * 2 ^ 53) (-53) .exact)).unpack := by
  have hnot : ¬(n < 2 ^ 53 ∧ 0 ≤ 22) := by omega
  have hnat : Float.ofNat n = Float.ofModel (Float.Model.ofScientific n 0) := dif_neg hnot
  have hbits : Format.binary64.mantissaBits = 53 := rfl
  have hrange : (0 : ℤ) ≤ 2 ^ Format.binary64.exponentBits := by positivity
  have hround : UnpackedFloat.ofScientific Format.binary64 n 0 =
      roundWithAccuracy Format.binary64 .positive (n * 2 ^ 53) (-53) .exact := by
    rw [UnpackedFloat.ofScientific, dif_neg (by omega), if_neg (by omega), if_neg (by omega),
      if_pos le_rfl]
    simp only [UnpackedFloat.mul, Nat.shiftLeft_eq, hbits, Int.toNat_zero, Nat.pow_zero,
      Nat.mul_one]
    rfl
  rw [hnat, ← hround]
  rfl

/-- The form of a natural number of at most 64 bits. -/
theorem exists_unpacked_ofNat {n : Nat} (hn : 0 < n) (h : n < 2 ^ 64) :
    ∃ m e hm, unpacked (Float.ofNat n) = .finite .positive m e hm ∧ -52 ≤ e := by
  rcases Nat.lt_or_ge n (2 ^ 53) with hshort | hlong
  · have hword : n.toUInt64.toNat = n := Nat.mod_eq_of_lt h
    obtain ⟨k, hm, hu⟩ := exists_unpacked_toFloat (w := n.toUInt64) (by omega) (by omega)
    have hbits := (hu ▸ isCanonical_unpacked n.toUInt64.toFloat).1
    have hk : k < 53 := by
      by_contra hk
      have hpow : 2 ^ 53 ≤ 2 ^ k := Nat.pow_le_pow_right Nat.two_pos (not_lt.1 hk)
      exact absurd hbits (not_lt.2 (hpow.trans (Nat.le_mul_of_pos_left _ (by omega))))
    rw [ofNat_eq_toFloat hshort]
    exact ⟨_, _, hm, hu, by omega⟩
  · have hlog : n.log2 < 64 := (Nat.log2_lt (by omega)).2 h
    have hlog' : 53 ≤ n.log2 := (Nat.le_log2 (by omega)).2 hlong
    have hlength : (n * 2 ^ 53).log2 = n.log2 + 53 := log2_mul_pow hn 53
    have hvalue : ((1 : ℕ) * 2 ^ (-1074 : ℤ) : ℚ) ≤ (n * 2 ^ 53 : ℕ) * 2 ^ (-53 : ℤ) :=
      mul_le_mul (Nat.cast_le.2 (Nat.mul_pos hn (Nat.two_pow_pos 53)))
        (zpow_le_zpow_right₀ one_le_two (by decide)) (two_zpow_pos _).le (Nat.cast_nonneg _)
    obtain ⟨m, e, hm, hround, hrounded, -, hlow, hhigh⟩ :=
      exists_round .positive (by omega) Nat.one_pos ⟨by decide, le_rfl, .inr rfl⟩ hvalue
    rw [hlength] at hlow hhigh
    rw [unpacked_ofNat_of_le hlong, hround, unpack_pack_rounded hrounded, if_pos (by omega)]
    exact ⟨m, e, hm, rfl, by omega⟩

/-- Products with the distance from one to the next double are exact, unless they are subnormal. -/
theorem unpacked_roundingError_mul {y : Float} {m : Nat} {e : Int} {hm : 0 < m}
    (hy : unpacked y = .finite .positive m e hm) (he : -1022 ≤ e) :
    unpacked (roundingError * y) = .finite .positive m (e - 52) hm := by
  have hunit : unpacked (roundingError : Float) =
      .finite .positive (2 ^ 52) (-104) (Nat.two_pow_pos 52) := by
    with_unfolding_all rfl
  have hcanonical : IsCanonical (.finite .positive m (e - 52) hm) := by
    obtain ⟨h₁, h₂, h₃, h₄⟩ := hy ▸ isCanonical_unpacked y
    exact ⟨h₁, by omega, by omega, .inl (h₄.resolve_right (by omega))⟩
  have hround := round_scaled .positive hm hcanonical 52
  have hexponent : e - 52 - (52 : ℕ) = -104 + e := by omega
  rw [hexponent, Nat.mul_comm] at hround
  refine unpacked_mul ?_ hcanonical
  rw [hunit, hy]
  exact hround

/-- A rounding error for each of a number of terms is a positive number. -/
theorem value_roundingError_mul_pos {n : Nat} (hn : 0 < n) (h : n < 2 ^ 64) :
    0 < value (roundingError * Float.ofNat n) := by
  obtain ⟨m, e, hm, hu, he⟩ := exists_unpacked_ofNat hn h
  rw [value, unpacked_roundingError_mul hu (by omega)]
  exact formValue_pos _ hm

/-- Products of natural numbers are exact as long as they have at most 53 bits. -/
theorem ofNat_mul {a b : Nat} (ha : 0 < a) (hb : 0 < b) (h : a * b < 2 ^ 53) :
    Float.ofNat a * Float.ofNat b = Float.ofNat (a * b) := by
  have hva := (value_ofNat ((Nat.le_mul_of_pos_right a hb).trans_lt h)).2
  have hvb := (value_ofNat ((Nat.le_mul_of_pos_left b ha).trans_lt h)).2
  apply mul_eq_of_value
  · rw [hva]
    exact Nat.cast_pos.2 ha
  · rw [hvb]
    exact Nat.cast_pos.2 hb
  · rw [hva, hvb, (value_ofNat h).2, Nat.cast_mul]

/-! ## Whole parts -/

/-- Converting to an integer cuts the value off. -/
theorem toInt_eq_floor {u : UnpackedFloat} {low high : Int} (hu : u.isFinite = true)
    (h : 0 ≤ formValue u) : u.toInt low high = ⌊formValue u⌋ := by
  cases u with
  | notANumber | infinity s => cases hu
  | zero s => exact Int.floor_zero.symm
  | finite s m e hm =>
    cases s with
    | negative => exact absurd h (not_le.2 (neg_lt_zero.2 (formValue_pos e hm)))
    | positive =>
      have hshift : (0 - (e - e.toNat)).toNat = (-e).toNat := by omega
      have hint : UnpackedFloat.toInt low high (.finite .positive m e hm) =
          ((m * 2 ^ e.toNat / 2 ^ (-e).toNat : ℕ) : ℤ) := by
        simp only [toInt, roundToInt, decreaseExponent, shiftToExponent, Sign.apply,
          mantissa_shiftRight, ExtendedMantissa.ofMantissaAndAccuracy, Nat.shiftLeft_eq,
          Int.sub_zero, hshift]
      have hvalue : (m * 2 ^ e : ℚ) = (m * 2 ^ e.toNat : ℕ) / (2 ^ (-e).toNat : ℕ) := by
        have he : e = e.toNat - (-e).toNat := by omega
        conv_lhs => rw [he, zpow_sub₀ two_ne_zero, zpow_natCast, zpow_natCast]
        push_cast
        ring
      rw [hint, formValue, hvalue, Rat.floor_natCast_div_natCast]
      rfl

/-- A number that does not fit into a machine word becomes the greatest one that does. -/
theorem toNat_ofNatClamp (n : Nat) :
    (UInt64.ofNatClamp n).toNat = min n (UInt64.size - 1) ∧
      (UInt32.ofNatClamp n).toNat = min n (UInt32.size - 1) := by
  constructor
  · by_cases hn : n < UInt64.size
    · rw [UInt64.ofNatClamp, dif_pos hn, Nat.min_eq_left (by omega), UInt64.toNat_ofNatLT]
    · rw [UInt64.ofNatClamp, dif_neg hn, Nat.min_eq_right (by omega), UInt64.toNat_ofNatLT]
  · by_cases hn : n < UInt32.size
    · rw [UInt32.ofNatClamp, dif_pos hn, Nat.min_eq_left (by omega), UInt32.toNat_ofNatLT]
    · rw [UInt32.ofNatClamp, dif_neg hn, Nat.min_eq_right (by omega), UInt32.toNat_ofNatLT]

section Convert

variable {x : Float} (hx : isFinite x = true) (h : 0 ≤ value x)

include hx h

/-- Words have whole parts up to the last word. -/
theorem toNat_toUInt64 : x.toUInt64.toNat = min ⌊value x⌋.toNat (UInt64.size - 1) := by
  have hint : (unpacked x).toInt 0 (UInt64.size - 1) = ⌊value x⌋ :=
    toInt_eq_floor (isFinite_iff.1 hx) h
  have hword : x.toUInt64 = UInt64.ofNatClamp ((unpacked x).toInt 0 (UInt64.size - 1)).toNat := rfl
  rw [hword, hint, (toNat_ofNatClamp _).1]

/-- The conversion to 32 bits takes the whole part and stops at both ends. -/
theorem toNat_toUInt32 : x.toUInt32.toNat = min ⌊value x⌋.toNat (UInt32.size - 1) := by
  have hint : (unpacked x).toInt 0 (UInt32.size - 1) = ⌊value x⌋ :=
    toInt_eq_floor (isFinite_iff.1 hx) h
  have hword : x.toUInt32 = UInt32.ofNatClamp ((unpacked x).toInt 0 (UInt32.size - 1)).toNat := rfl
  rw [hword, hint, (toNat_ofNatClamp _).2]

end Convert

/-! ## Numbers without a fraction -/

/-- From this double on, all doubles are whole. -/
theorem unpacked_wholeBound :
    unpacked 4503599627370496.0 = .finite .positive (2 ^ 52) 0 (Nat.two_pow_pos 52) := by
  with_unfolding_all rfl

/-- The bound from which on doubles have no fraction. -/
theorem value_wholeBound :
    isFinite (4503599627370496.0 : Float) = true ∧ value 4503599627370496.0 = 2 ^ 52 := by
  rw [isFinite_iff, value, unpacked_wholeBound]
  exact ⟨rfl, by norm_num [formValue]⟩

/-- The magnitude stands for the absolute value. -/
theorem value_abs (x : Float) : value x.abs = |value x| := by
  rw [value, unpacked_abs, value]
  cases unpacked x with
  | notANumber | infinity s | zero s => exact abs_zero.symm
  | finite s m e hm =>
    have hpos := formValue_pos e hm
    cases s with
    | positive => exact (abs_of_pos hpos).symm
    | negative => exact ((abs_neg _).trans (abs_of_pos hpos)).symm

/-- What is below the bound in magnitude is finite. -/
theorem isFinite_of_abs_lt {x : Float} (h : x.abs < 4503599627370496.0) : isFinite x = true := by
  rw [lt_iff, unpacked_abs, unpacked_wholeBound] at h
  rw [isFinite_iff]
  cases hu : unpacked x with
  | notANumber | infinity s =>
    rw [hu] at h
    cases h
  | zero s | finite s m e hm => rfl

/-- A finite double that is not less than zero stands for a number from zero on. -/
theorem zero_le_value {x : Float} (hx : isFinite x = true) (h : ¬x < 0) : 0 ≤ value x := by
  rw [lt_iff_value hx (isFinite_of_isZero isZero_zero)] at h
  exact not_lt.1 h

/-- Equal numbers have no distance. -/
theorem isZero_sub {x y : Float} (hx : isFinite x = true) (h : (x == y) = true) :
    IsZero (x - y) := by
  obtain ⟨-, -, rfl | ⟨rfl, rfl⟩ | ⟨rfl, rfl⟩⟩ := Float.beq_iff_ne_nan_and_eq.1 h
  · exact beq_zero_iff.1 hx
  · exact ⟨.positive, rfl⟩
  · exact ⟨.negative, rfl⟩

/-- What is equal to a finite double is finite. -/
theorem isFinite_of_beq {x y : Float} (hx : isFinite x = true) (h : (x == y) = true) :
    isFinite y = true := by
  obtain ⟨-, -, rfl | ⟨-, rfl⟩ | ⟨-, rfl⟩⟩ := Float.beq_iff_ne_nan_and_eq.1 h
  · exact hx
  · exact isFinite_of_isZero isZero_zero.neg
  · exact isFinite_of_isZero isZero_zero

/-- A half is not below a zero. -/
theorem IsZero.not_half_le {x : Float} (h : IsZero x) : ¬(0.5 : Float) ≤ x := by
  obtain ⟨s, h⟩ := h
  have hhalf : unpacked 0.5 = .finite .positive (2 ^ 52) (-53) (Nat.two_pow_pos 52) := by
    with_unfolding_all rfl
  rw [le_iff, h, hhalf]
  exact Bool.false_ne_true

/-- The test against the bound is one of the absolute value. -/
theorem abs_lt_wholeBound_iff {x : Float} (hx : isFinite x = true) :
    x.abs < 4503599627370496.0 ↔ |value x| < 2 ^ 52 := by
  rw [lt_iff_value (isFinite_abs hx) value_wholeBound.1, value_abs, value_wholeBound.2]

section Small

variable {x : Float} (hx : isFinite x = true) (hpos : 0 ≤ value x)

include hx hpos

/-- From zero on, a double and its magnitude are converted to the same 64 bits. -/
theorem abs_toUInt64 : x.abs.toUInt64 = x.toUInt64 := by
  have habs : value x.abs = value x := (value_abs x).trans (abs_of_nonneg hpos)
  rw [← UInt64.toNat_inj, toNat_toUInt64 (isFinite_abs hx) (habs ▸ hpos), habs,
    toNat_toUInt64 hx hpos]

variable (hsmall : value x < 2 ^ 52)

include hsmall

/-- Below the bound the conversion to 64 bits is the whole part. -/
theorem toNat_toUInt64_of_lt : x.toUInt64.toNat = ⌊value x⌋.toNat := by
  have hcut : ⌊value x⌋ < 2 ^ 52 := Int.floor_lt.2 (by exact_mod_cast hsmall)
  have hsize : 2 ^ 52 ≤ UInt64.size - 1 := by decide
  rw [toNat_toUInt64 hx hpos]
  omega

/-- The whole part as a double. -/
theorem value_wholePart :
    isFinite x.toUInt64.toFloat = true ∧ value x.toUInt64.toFloat = ⌊value x⌋ := by
  have hcut : ⌊value x⌋ < 2 ^ 52 := Int.floor_lt.2 (by exact_mod_cast hsmall)
  have hword := toNat_toUInt64_of_lt hx hpos hsmall
  obtain ⟨hfinite, hvalue⟩ := value_toFloat (w := x.toUInt64) (by omega)
  refine ⟨hfinite, ?_⟩
  rw [hvalue, hword]
  exact_mod_cast Int.toNat_of_nonneg (Int.floor_nonneg.2 hpos)

/-- Nothing is left of a double without its whole part if it has no fraction. -/
theorem sub_floor_beq_zero_iff :
    (x - Elementary.floor x == 0) = true ↔ value x = ⌊value x⌋ := by
  have hfloor : Elementary.floor x = floorFloat x := rfl
  obtain ⟨hwhole, hvalue⟩ := value_wholePart hx hpos hsmall
  have hlt : x.abs < 4503599627370496.0 := by
    rwa [abs_lt_wholeBound_iff hx, abs_of_nonneg hpos]
  have hbeq : (x.toUInt64.toFloat == x.abs) = true ↔ value x = ⌊value x⌋ := by
    rw [beq_iff_value hwhole (isFinite_abs hx), hvalue, value_abs, abs_of_nonneg hpos, eq_comm]
  have hneg : ¬x < 0.0 := by
    have hzero : isFinite (0 : Float) = true := isFinite_of_isZero isZero_zero
    show ¬x < 0
    rw [lt_iff_value hx hzero]
    exact not_lt.2 hpos
  rw [hfloor, floorFloat, if_pos hlt, abs_toUInt64 hx hpos]
  by_cases heq : value x = ⌊value x⌋
  · simp only [if_pos (hbeq.2 heq)]
    exact iff_of_true hx heq
  · simp only [if_neg (mt hbeq.1 heq), if_neg hneg]
    refine iff_of_false (fun h => heq ?_) heq
    rw [← hvalue, ← beq_iff_value hx hwhole]
    exact beq_of_sub_beq_zero hx hwhole h

/-- A natural number is rounded to itself. -/
theorem roundToNat_of_value {n : Nat} (h : value x = n) : Elementary.roundToNat x = n := by
  have hround : Elementary.roundToNat x = roundToNatFloat x := rfl
  obtain ⟨hwhole, hvalue⟩ := value_wholePart hx hpos hsmall
  have hfloor : ⌊value x⌋ = n := by rw [h, Int.floor_natCast]
  have heq : (x == x.toUInt64.toFloat) = true := by
    rw [beq_iff_value hx hwhole, hvalue, hfloor, h, Int.cast_natCast]
  have hrest : ¬(0.5 : Float) ≤ x - x.toUInt64.toFloat := (isZero_sub hx heq).not_half_le
  rw [hround, roundToNatFloat]
  simp only [decide_eq_false hrest, Bool.and_false, if_neg Bool.false_ne_true]
  rw [toNat_toUInt64_of_lt hx hpos hsmall, hfloor, Int.toNat_natCast]

end Small

/-- Great doubles are not rounded to small numbers. -/
theorem le_roundToNat {x : Float} (hx : isFinite x = true) (h : 2 ^ 52 ≤ value x) :
    2 ^ 52 ≤ Elementary.roundToNat x := by
  have hround : Elementary.roundToNat x = roundToNatFloat x := rfl
  have hnot : ¬x < 4503599627370496.0 := by
    rw [lt_iff_value hx value_wholeBound.1, value_wholeBound.2]
    exact not_lt.2 h
  have hfloor : (2 ^ 52 : ℤ) ≤ ⌊value x⌋ := Int.le_floor.2 (by exact_mod_cast h)
  have hsize : 2 ^ 52 ≤ UInt64.size - 1 := by decide
  rw [hround, roundToNatFloat]
  simp only [decide_eq_false hnot, Bool.false_and, if_neg Bool.false_ne_true]
  rw [toNat_toUInt64 hx ((by norm_num : (0 : ℚ) ≤ 2 ^ 52).trans h)]
  omega

/-- A double is a natural number, or so great that it is whole and as great as the number. -/
def IsWhole (x : Float) (n : Nat) : Prop :=
  isFinite x = true ∧ (value x = n ∨ 2 ^ 52 ≤ value x ∧ 2 ^ 52 ≤ n)

/-- A double without a fraction is the number that it is rounded to. -/
theorem isWhole_roundToNat {x : Float} (hneg : ¬x < 0)
    (h : (x - Elementary.floor x == 0) = true) : IsWhole x (Elementary.roundToNat x) := by
  by_cases hlt : x.abs < 4503599627370496.0
  · have hx := isFinite_of_abs_lt hlt
    have hpos := zero_le_value hx hneg
    have hsmall : value x < 2 ^ 52 := by rwa [abs_lt_wholeBound_iff hx, abs_of_nonneg hpos] at hlt
    obtain ⟨n, hn⟩ := Int.eq_ofNat_of_zero_le (Int.floor_nonneg.2 hpos)
    have hvalue : value x = n := by
      rw [(sub_floor_beq_zero_iff hx hpos hsmall).1 h, hn, Int.cast_natCast]
    rw [roundToNat_of_value hx hpos hsmall hvalue]
    exact ⟨hx, .inl hvalue⟩
  · -- All great doubles are whole, but those that are not finite leave no zero.
    have hx : isFinite x = true := by
      have hfloor : Elementary.floor x = floorFloat x := rfl
      rw [hfloor, floorFloat, if_neg hlt] at h
      exact h
    have hlarge : 2 ^ 52 ≤ value x := by
      rw [abs_lt_wholeBound_iff hx, abs_of_nonneg (zero_le_value hx hneg)] at hlt
      exact not_lt.1 hlt
    exact ⟨hx, .inr ⟨hlarge, le_roundToNat hx hlarge⟩⟩

/-- Every finite double is less than positive infinity. -/
theorem lt_infinity {x y : Float} (hx : isFinite x = true) (hy : unpacked y = .infinity .positive) :
    x < y := by
  rw [isFinite_iff] at hx
  rw [lt_iff, hy]
  cases hu : unpacked x with
  | notANumber | infinity s => rw [hu] at hx; cases hx
  | zero s => rfl
  | finite s m e hm => cases s <;> rfl

/-- A finite double that stands for zero is a zero. -/
theorem isZero_of_value {x : Float} (hx : isFinite x = true) (h : value x = 0) : IsZero x := by
  have hzero : isFinite (0 : Float) = true := isFinite_of_isZero isZero_zero
  exact beq_zero_iff.1 ((beq_iff_value hx hzero).2 h)

/-- A zero stands for zero. -/
theorem IsZero.value_eq {x : Float} (h : IsZero x) : value x = 0 := by
  obtain ⟨s, h⟩ := h
  rw [value, h]
  rfl

/-- The doubles of natural numbers are not negative, have no fraction, and are rounded to these
numbers. -/
theorem roundToNat_of_beq {x : Float} {n : Nat} (hn : n < 2 ^ 52)
    (h : (Float.ofNat n == x) = true) :
    ¬x < 0 ∧ (x - Elementary.floor x == 0) = true ∧ Elementary.roundToNat x = n := by
  obtain ⟨hfinite, hnat⟩ := value_ofNat (n := n) (by omega)
  have hx := isFinite_of_beq hfinite h
  have hvalue : value x = n := ((beq_iff_value hfinite hx).1 h).symm.trans hnat
  have hpos : 0 ≤ value x := by
    rw [hvalue]
    exact Nat.cast_nonneg n
  have hsmall : value x < 2 ^ 52 := by
    rw [hvalue]
    exact_mod_cast hn
  refine ⟨?_, ?_, roundToNat_of_value hx hpos hsmall hvalue⟩
  · rw [lt_iff_value hx (isFinite_of_isZero isZero_zero)]
    exact not_lt.2 hpos
  · rw [sub_floor_beq_zero_iff hx hpos hsmall, hvalue, Int.floor_natCast, Int.cast_natCast]

section Bound

variable {x : Float} {n : Nat}

/-- A whole double that is not great is a natural number, and a short word has room for it. -/
theorem IsWhole.of_lt (h : IsWhole x n) (hn : n < UInt32.size) :
    (Float.ofNat n == x) = true ∧ x.toUInt32.toNat = n := by
  have hsize : UInt32.size < 2 ^ 52 := by decide
  obtain ⟨hx, hvalue | ⟨-, hlarge⟩⟩ := h
  · obtain ⟨hfinite, hnat⟩ := value_ofNat (n := n) (by omega)
    have hpos : 0 ≤ value x := by
      rw [hvalue]
      exact Nat.cast_nonneg n
    constructor
    · rw [beq_iff_value hfinite hx, hnat, hvalue]
    · rw [toNat_toUInt32 hx hpos, hvalue, Int.floor_natCast, Int.toNat_natCast]
      omega
  · omega

/-- Whether a product with a whole double is above a bound can be seen from the natural numbers. -/
theorem IsWhole.lt_mul_iff (h : IsWhole x n) {d bound : Nat} (hd : 0 < d) (hd' : d ≤ bound)
    (hbound : bound * bound < 2 ^ 52) :
    Float.ofNat bound < Float.ofNat d * x ↔ bound < d * n := by
  have hsquare : bound ≤ bound * bound := Nat.le_mul_of_pos_left bound (hd.trans_le hd')
  obtain ⟨hfb, hvb⟩ := value_ofNat (n := bound) (by omega)
  obtain ⟨hfd, hvd⟩ := value_ofNat (n := d) (by omega)
  obtain ⟨hx, hn⟩ := h
  -- Up to the bound the product is exact. Above it the double is too great already.
  by_cases hle : n ≤ bound
  · have hn : value x = n := hn.resolve_right fun h => by omega
    rcases Nat.eq_zero_or_pos n with rfl | hpos
    · have hzero := (isZero_of_value hx (hn.trans Nat.cast_zero)).of_mul hfd
      rw [lt_iff_value hfb (isFinite_of_isZero hzero), hzero.value_eq, hvb, Nat.mul_zero]
      simp
    · have hproduct : d * n ≤ bound * bound := Nat.mul_le_mul hd' hle
      obtain ⟨hfn, hvn⟩ := value_ofNat (n := n) (by omega)
      obtain ⟨hfp, hvp⟩ := value_ofNat (n := d * n) (by omega)
      have hx' : Float.ofNat n = x := by
        refine eq_of_beq ((beq_iff_value hfn hx).2 (hvn.trans hn.symm)) fun hz => ?_
        rw [hz.value_eq, eq_comm, Nat.cast_eq_zero] at hvn
        omega
      rw [← hx', ofNat_mul hd hpos (by omega), lt_iff_value hfb hfp, hvb, hvp, Nat.cast_lt]
  · have hless : (bound : ℚ) < value x := by
      rcases hn with hn | ⟨hn, -⟩
      · rw [hn]
        exact Nat.cast_lt.2 (not_le.1 hle)
      · refine lt_of_lt_of_le ?_ hn
        exact_mod_cast hsquare.trans_lt hbound
    have hproduct : bound < d * n := (not_le.1 hle).trans_le (Nat.le_mul_of_pos_left n hd)
    refine iff_of_true ?_ hproduct
    have hone : 1 ≤ value (Float.ofNat d) := by
      rw [hvd]
      exact Nat.one_le_cast.2 hd
    rcases le_mul ((Nat.cast_nonneg bound).trans_lt hless) hone with hinf | ⟨hfp, hge⟩
    · exact lt_infinity hfb hinf
    · rw [lt_iff_value hfb hfp, hvb]
      exact hless.trans_le hge

end Bound

end SignalCalc.Double
