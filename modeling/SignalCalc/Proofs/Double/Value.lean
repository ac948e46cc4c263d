import SignalCalc.Proofs.Double.Arithmetic

/-!
# The values of doubles

A finite double stands for a rational number. Comparing doubles is comparing these numbers, and
rounding never takes a number below a double that it was not below before (`exists_round`). So a
difference of doubles is zero for equal ones only: what is left of the last bits is a double itself.

Main definition: `value`. Main statements: `compare_eq`, `beq_of_sub_beq_zero`, `le_mul`.
-/

namespace SignalCalc.Double

open Float.Model Float.Model.UnpackedFloat

/-! ## Values and their order -/

/-- The number that an unpacked form stands for. It is zero where there is none. -/
def formValue : UnpackedFloat → ℚ
  | .finite .positive m e _ => m * 2 ^ e
  | .finite .negative m e _ => -(m * 2 ^ e)
  | _ => 0

/-- The number that a double stands for. -/
def value (x : Float) : ℚ := formValue (unpacked x)

/-- Powers of two are positive. -/
theorem two_zpow_pos (e : ℤ) : (0 : ℚ) < 2 ^ e := zpow_pos two_pos e

/-- The lengths of mantissas that unpacking leaves and rounding aims at: 53 bits, or fewer at the
least exponent. The exponent can be too great. -/
def IsRounded (m : Nat) (e : Int) : Prop := m < 2 ^ 53 ∧ -1074 ≤ e ∧ (2 ^ 52 ≤ m ∨ e = -1074)

/-- A finite form is canonical if its mantissa is rounded and its exponent is not too great. -/
theorem isCanonical_finite_iff {s : Sign} {m : Nat} {e : Int} {hm : 0 < m} :
    IsCanonical (.finite s m e hm) ↔ IsRounded m e ∧ e ≤ 971 := by
  simp only [IsCanonical, IsRounded]
  tauto

/-- A greater exponent makes up for half of a mantissa. -/
theorem mul_zpow_le {m₁ m₂ : Nat} {e₁ e₂ : Int} (hm : m₁ ≤ 2 * m₂) (he : e₁ < e₂) :
    (m₁ * 2 ^ e₁ : ℚ) ≤ m₂ * 2 ^ e₂ := by
  have hm : (m₁ : ℚ) ≤ 2 * m₂ := by exact_mod_cast hm
  calc (m₁ * 2 ^ e₁ : ℚ) ≤ 2 * m₂ * 2 ^ e₁ := mul_le_mul_of_nonneg_right hm (two_zpow_pos e₁).le
    _ = m₂ * 2 ^ (e₁ + 1) := by rw [zpow_add_one₀ two_ne_zero]; ring
    _ ≤ m₂ * 2 ^ e₂ :=
      mul_le_mul_of_nonneg_left (zpow_le_zpow_right₀ one_le_two he) (Nat.cast_nonneg m₂)

/-- A greater exponent makes a greater number, whatever the mantissas are. -/
theorem IsRounded.lt_of_exponent_lt {m₁ m₂ : Nat} {e₁ e₂ : Int} (h₁ : IsRounded m₁ e₁)
    (h₂ : IsRounded m₂ e₂) (h : e₁ < e₂) : (m₁ * 2 ^ e₁ : ℚ) < m₂ * 2 ^ e₂ := by
  obtain ⟨hm₁, he₁, -⟩ := h₁
  obtain ⟨-, -, hm₂⟩ := h₂
  have hm₂ : 2 ^ 52 ≤ m₂ := hm₂.resolve_right (by omega)
  calc (m₁ * 2 ^ e₁ : ℚ) < (m₁ + 1 : ℕ) * 2 ^ e₁ :=
      mul_lt_mul_of_pos_right (Nat.cast_lt.2 (Nat.lt_succ_self m₁)) (two_zpow_pos e₁)
    _ ≤ m₂ * 2 ^ e₂ := mul_zpow_le (by omega) h

/-- Exponents and then mantissas decide between positive numbers. -/
theorem IsRounded.compare_eq {m₁ m₂ : Nat} {e₁ e₂ : Int} (h₁ : IsRounded m₁ e₁)
    (h₂ : IsRounded m₂ e₂) :
    (compare e₁ e₂).then (compare m₁ m₂) = compare (m₁ * 2 ^ e₁ : ℚ) (m₂ * 2 ^ e₂) := by
  rcases lt_trichotomy e₁ e₂ with h | rfl | h
  · rw [compare_lt_iff_lt.2 h, compare_lt_iff_lt.2 (h₁.lt_of_exponent_lt h₂ h)]
    rfl
  · have hmono : ∀ {m n : Nat}, m < n → (m * 2 ^ e₁ : ℚ) < n * 2 ^ e₁ := fun hmn =>
      mul_lt_mul_of_pos_right (Nat.cast_lt.2 hmn) (two_zpow_pos e₁)
    rw [compare_eq_iff_eq.2 rfl]
    rcases lt_trichotomy m₁ m₂ with h | rfl | h
    · rw [compare_lt_iff_lt.2 h, compare_lt_iff_lt.2 (hmono h)]
      rfl
    · rw [compare_eq_iff_eq.2 rfl, compare_eq_iff_eq.2 rfl]
      rfl
    · rw [compare_gt_iff_gt.2 h, compare_gt_iff_gt.2 (hmono h)]
      rfl
  · rw [compare_gt_iff_gt.2 h, compare_gt_iff_gt.2 (h₂.lt_of_exponent_lt h₁ h)]
    rfl

/-- A mantissa at any exponent stands for a positive number. -/
theorem formValue_pos {m : Nat} (e : Int) (hm : 0 < m) : (0 : ℚ) < m * 2 ^ e :=
  mul_pos (Nat.cast_pos.2 hm) (two_zpow_pos e)

/-- A change of both signs turns a comparison around. -/
theorem compare_neg_neg (a b : ℚ) : compare (-a) (-b) = (compare a b).swap := by
  rcases lt_trichotomy a b with h | rfl | h
  · rw [compare_lt_iff_lt.2 h, compare_gt_iff_gt.2 (neg_lt_neg h)]
    rfl
  · rw [compare_eq_iff_eq.2 rfl, compare_eq_iff_eq.2 rfl]
    rfl
  · rw [compare_gt_iff_gt.2 h, compare_lt_iff_lt.2 (neg_lt_neg h)]
    rfl

/-- Only finite forms with a positive sign stand for positive numbers. -/
theorem exists_finite_of_pos {u : UnpackedFloat} (h : 0 < formValue u) :
    ∃ m e hm, u = .finite .positive m e hm := by
  cases u with
  | notANumber | infinity s | zero s => exact absurd h (lt_irrefl 0)
  | finite s m e hm =>
    cases s with
    | positive => exact ⟨m, e, hm, rfl⟩
    | negative => exact absurd h (not_lt.2 (neg_nonpos.2 (formValue_pos e hm).le))

/-- Finite forms are compared by their values. -/
theorem formCompare_eq {u v : UnpackedFloat} (hu : IsCanonical u) (hv : IsCanonical v)
    (hu' : u.isFinite = true) (hv' : v.isFinite = true) :
    u.compare v = some (compare (formValue u) (formValue v)) := by
  cases u with
  | notANumber | infinity s => cases hu'
  | zero s =>
    cases v with
    | notANumber | infinity t => cases hv'
    | zero t => exact congrArg some (compare_eq_iff_eq.2 rfl).symm
    | finite t n f hn =>
      have hpos := formValue_pos f hn
      cases t with
      | positive => exact congrArg some (compare_lt_iff_lt.2 hpos).symm
      | negative => exact congrArg some (compare_gt_iff_gt.2 (neg_lt_zero.2 hpos)).symm
  | finite s m e hm =>
    have hpos := formValue_pos e hm
    cases v with
    | notANumber | infinity t => cases hv'
    | zero t =>
      cases s with
      | positive => exact congrArg some (compare_gt_iff_gt.2 hpos).symm
      | negative => exact congrArg some (compare_lt_iff_lt.2 (neg_lt_zero.2 hpos)).symm
    | finite t n f hn =>
      have hpos' := formValue_pos f hn
      have hcompare := (isCanonical_finite_iff.1 hu).1.compare_eq (isCanonical_finite_iff.1 hv).1
      cases s with
      | positive =>
        cases t with
        | positive => exact congrArg some hcompare
        | negative =>
          exact congrArg some (compare_gt_iff_gt.2 ((neg_lt_zero.2 hpos').trans hpos)).symm
      | negative =>
        cases t with
        | positive =>
          exact congrArg some (compare_lt_iff_lt.2 ((neg_lt_zero.2 hpos).trans hpos')).symm
        | negative =>
          exact congrArg some ((congrArg Ordering.swap hcompare).trans (compare_neg_neg _ _).symm)

section Order

variable {x y : Float} (hx : isFinite x = true) (hy : isFinite y = true)

include hx hy

/-- Finite doubles are compared as the numbers that they stand for. -/
theorem compare_eq :
    (unpacked x).compare (unpacked y) = some (compare (value x) (value y)) :=
  formCompare_eq (isCanonical_unpacked x) (isCanonical_unpacked y) (isFinite_iff.1 hx)
    (isFinite_iff.1 hy)

/-- Finite doubles are ordered as the numbers that they stand for. -/
theorem lt_iff_value : x < y ↔ value x < value y := by
  rw [lt_iff, UnpackedFloat.lt, compare_eq hx hy, ← compare_lt_iff_lt]
  simp

/-- The order of finite doubles is that of their numbers, equality included. -/
theorem le_iff_value : x ≤ y ↔ value x ≤ value y := by
  rw [le_iff, UnpackedFloat.le, compare_eq hx hy, Option.any_some, Ordering.isLE_iff_ne_gt,
    compare_gt_iff_gt, not_lt]

/-- Finite doubles count as equal if they stand for the same number. -/
theorem beq_iff_value : (x == y) = true ↔ value x = value y := by
  rw [beq_iff, compare_eq hx hy, Option.some_inj, compare_eq_iff_eq]

end Order

/-! ## Rounding -/

/-- A shift divides the mantissa by a power of two and drops the remainder. -/
theorem mantissa_shiftRight (em : ExtendedMantissa) (k : Nat) :
    (em >>> k).mantissa = em.mantissa / 2 ^ k := by
  show (Nat.repeat ExtendedMantissa.shiftRightOne k em).mantissa = _
  induction k with
  | zero => simp [Nat.repeat]
  | succ k ih =>
    rw [Nat.repeat, ExtendedMantissa.shiftRightOne, ih, Nat.div_div_eq_div_mul, Nat.pow_succ]

/-- Rounding does not make a mantissa smaller. -/
theorem le_roundedMantissa (em : ExtendedMantissa) : em.mantissa ≤ em.roundedMantissa := by
  obtain ⟨m, r, s⟩ := em
  cases r <;> cases s <;>
    simp [ExtendedMantissa.roundedMantissa, ExtendedMantissa.accuracy,
      Accuracy.roundToNearestEven]

/-- Rounding adds one to a mantissa at most. -/
theorem roundedMantissa_le (em : ExtendedMantissa) : em.roundedMantissa ≤ em.mantissa + 1 := by
  obtain ⟨m, r, s⟩ := em
  cases r <;> cases s <;>
    simp [ExtendedMantissa.roundedMantissa, ExtendedMantissa.accuracy,
      Accuracy.roundToNearestEven]
  omega

/-- The exponent at which a number is rounded. -/
theorem targetExponent_eq (M : Nat) (E : Int) :
    Format.binary64.targetExponent (totalExponent M E) = max (M.log2 + E - 52) (-1074) := by
  show max ((M.log2 : Int) + 1 + E - (1 + 52 : Nat)) (-1074) = _
  omega

/-- The mantissa and the exponent to which a number is brought before it is rounded. -/
theorem shiftToTargetExponent_eq {M : Nat} {E : Int} (a : Accuracy) {k : Nat}
    (hk : Format.binary64.targetExponent (totalExponent M E) = E + k) :
    shiftToTargetExponent Format.binary64 M E a =
      (ExtendedMantissa.ofMantissaAndAccuracy M a >>> k, E + k) := by
  have ht : (E + k - E).toNat = k := by omega
  simp only [shiftToTargetExponent, shiftToExponent, hk, ht]

/-- A mantissa of at most 53 bits is not shifted. -/
theorem shiftToTargetExponent_of_lt {r : Nat} {t : Int} (hr : r < 2 ^ 53) (ht : -1074 ≤ t) :
    shiftToTargetExponent Format.binary64 r t .exact = (⟨r, false, false⟩, t) := by
  have hlog : r.log2 < 53 := by
    rcases Nat.eq_zero_or_pos r with rfl | hpos
    · simp
    · exact (Nat.log2_lt (Nat.ne_of_gt hpos)).2 hr
  have hk : (Format.binary64.targetExponent (totalExponent r t) - t).toNat = 0 := by
    rw [targetExponent_eq]
    omega
  have hs := shiftRight_scaled r 0
  rw [Nat.pow_zero, Nat.mul_one] at hs
  simp only [shiftToTargetExponent, shiftToExponent, ExtendedMantissa.ofMantissaAndAccuracy, hk, hs]
  simp

/-- A mantissa that rounding made one bit longer is halved. -/
theorem shiftToTargetExponent_top {t : Int} (ht : -1074 ≤ t) :
    shiftToTargetExponent Format.binary64 (2 ^ 53) t .exact = (⟨2 ^ 52, false, false⟩, t + 1) := by
  have hk : Format.binary64.targetExponent (totalExponent (2 ^ 53) t) = t + (1 : Nat) := by
    rw [targetExponent_eq, Nat.log2_two_pow]
    omega
  have hs := shiftRight_scaled (2 ^ 52) 1
  rw [shiftToTargetExponent_eq .exact hk]
  exact congrArg (·, t + (1 : Nat)) hs

section Round

variable {M : Nat} {E : Int}

/-- The shift at which 53 bits of a mantissa are left, or the least exponent is reached. There is
one unless the mantissa is short already. -/
theorem exists_shift (hM : 0 < M) (hE : 52 ≤ M.log2 ∨ E ≤ -1074) :
    ∃ k : Nat, Format.binary64.targetExponent (totalExponent M E) = E + k ∧
      IsRounded (M / 2 ^ k) (E + k) := by
  obtain ⟨k, hk⟩ : ∃ k : Nat, max (M.log2 + E - 52) (-1074) = E + k :=
    ⟨(max (M.log2 + E - 52) (-1074) - E).toNat, by omega⟩
  refine ⟨k, (targetExponent_eq M E).trans hk, ?_, by omega, ?_⟩
  · rw [Nat.div_lt_iff_lt_mul (Nat.two_pow_pos k), ← Nat.pow_add]
    exact Nat.lt_log2_self.trans_le (Nat.pow_le_pow_right Nat.two_pos (by omega))
  · rw [or_iff_not_imp_right]
    intro hne
    have hlog : 52 + k = M.log2 := by omega
    rw [Nat.le_div_iff_mul_le (Nat.two_pow_pos k), ← Nat.pow_add, hlog]
    exact Nat.log2_self_le (Nat.ne_of_gt hM)

/-- What is cut off does not lead below a rounded number. -/
theorem le_floor {k m : Nat} {e : Int} (hk : IsRounded (M / 2 ^ k) (E + k)) (h : IsRounded m e)
    (hle : (m * 2 ^ e : ℚ) ≤ M * 2 ^ E) :
    (m * 2 ^ e : ℚ) ≤ (M / 2 ^ k : ℕ) * 2 ^ (E + k) := by
  have hlt : (m * 2 ^ e : ℚ) < (M / 2 ^ k + 1 : ℕ) * 2 ^ (E + k) := by
    have hM : (M : ℚ) < (M / 2 ^ k + 1 : ℕ) * 2 ^ k := by
      exact_mod_cast Nat.lt_mul_of_div_lt (Nat.lt_succ_self _) (Nat.two_pow_pos k)
    calc (m * 2 ^ e : ℚ) ≤ M * 2 ^ E := hle
      _ < (M / 2 ^ k + 1 : ℕ) * 2 ^ k * 2 ^ E := mul_lt_mul_of_pos_right hM (two_zpow_pos E)
      _ = (M / 2 ^ k + 1 : ℕ) * 2 ^ (E + k) := by
        rw [zpow_add₀ two_ne_zero, zpow_natCast]
        ring
  rcases lt_trichotomy e (E + k) with he | rfl | he
  · exact (h.lt_of_exponent_lt hk he).le
  · have hm := Nat.cast_lt.1 (lt_of_mul_lt_mul_right hlt (two_zpow_pos _).le)
    exact mul_le_mul_of_nonneg_right (Nat.cast_le.2 (Nat.le_of_lt_succ hm)) (two_zpow_pos _).le
  · obtain ⟨hshort, hmin, -⟩ := hk
    have hm : 2 ^ 52 ≤ m := h.2.2.resolve_right (by omega)
    exact absurd (mul_zpow_le (by omega) he) (not_le.2 hlt)

/-- Rounding ends in a rounded form, and not below a rounded number unless it started there. The
exponent is the one at which it cuts off, or the next one. -/
theorem exists_round (s : Sign) (hE : 52 ≤ M.log2 ∨ E ≤ -1074) {m : Nat} {e : Int} (hm : 0 < m)
    (h : IsRounded m e) (hle : (m * 2 ^ e : ℚ) ≤ M * 2 ^ E) :
    ∃ m' e' hm', roundWithAccuracy Format.binary64 s M E .exact = .finite s m' e' hm' ∧
      IsRounded m' e' ∧ (m * 2 ^ e : ℚ) ≤ m' * 2 ^ e' ∧
      max (M.log2 + E - 52) (-1074) ≤ e' ∧ e' ≤ max (M.log2 + E - 52) (-1074) + 1 := by
  have hpos := formValue_pos e hm
  have hM : 0 < M := by
    have hM := pos_of_mul_pos_left (hpos.trans_le hle) (two_zpow_pos E).le
    exact_mod_cast hM
  obtain ⟨k, htarget, hk⟩ := exists_shift hM hE
  have hfirst := shiftToTargetExponent_eq .exact htarget
  have hfloor := le_floor hk h hle
  rw [targetExponent_eq] at htarget
  set em := ExtendedMantissa.ofMantissaAndAccuracy M .exact >>> k with hem
  have hcut : em.mantissa = M / 2 ^ k := mantissa_shiftRight _ k
  have hlow : M / 2 ^ k ≤ em.roundedMantissa := hcut ▸ le_roundedMantissa em
  have hhigh : em.roundedMantissa ≤ M / 2 ^ k + 1 := hcut ▸ roundedMantissa_le em
  obtain ⟨hshort, hmin, hfull⟩ := hk
  -- Rounding up can give the mantissa one bit too many. Then the exponent is the next one.
  by_cases hr : em.roundedMantissa < 2 ^ 53
  · have hsecond := shiftToTargetExponent_of_lt hr hmin
    have hvalue : (m * 2 ^ e : ℚ) ≤ em.roundedMantissa * 2 ^ (E + k) :=
      hfloor.trans (mul_le_mul_of_nonneg_right (Nat.cast_le.2 hlow) (two_zpow_pos _).le)
    have hr0 : 0 < em.roundedMantissa := by
      have hr0 := pos_of_mul_pos_left (hpos.trans_le hvalue) (two_zpow_pos _).le
      exact_mod_cast hr0
    refine ⟨em.roundedMantissa, E + k, hr0, ?_, ⟨hr, hmin, hfull.imp_left hlow.trans'⟩, hvalue,
      by omega, by omega⟩
    simp only [roundWithAccuracy, hfirst, hsecond]
    exact dif_neg (Nat.ne_of_gt hr0)
  · have htop : em.roundedMantissa = 2 ^ 53 := by omega
    have hsecond := shiftToTargetExponent_top hmin
    refine ⟨2 ^ 52, E + k + 1, Nat.two_pow_pos 52, ?_, ⟨by decide, by omega, .inl le_rfl⟩,
      hfloor.trans (mul_zpow_le (by omega) (Int.lt_succ _)), by omega, by omega⟩
    simp only [roundWithAccuracy, hfirst, htop, hsecond]
    exact dif_neg (Nat.ne_of_gt (Nat.two_pow_pos 52))

/-- With the exponent decreased first where the mantissa is short, rounding a number that is not
below the least double ends in a rounded form. -/
theorem exists_round_of_pos (s : Sign) (hM : 0 < M) (hE : -1074 ≤ E) :
    ∃ m e hm, round Format.binary64 s M E = .finite s m e hm ∧ IsRounded m e := by
  obtain ⟨j, hj⟩ : ∃ j, (E - Format.binary64.targetExponent (totalExponent M E)).toNat = j :=
    ⟨_, rfl⟩
  have hvalue : ((1 : ℕ) * 2 ^ (-1074 : ℤ) : ℚ) ≤ (M * 2 ^ j : ℕ) * 2 ^ (E - j) := by
    have hscaled : ((M * 2 ^ j : ℕ) * 2 ^ (E - j) : ℚ) = M * 2 ^ E := by
      rw [zpow_sub₀ two_ne_zero, zpow_natCast]
      push_cast
      field_simp
    rw [hscaled]
    exact mul_le_mul (Nat.cast_le.2 hM) (zpow_le_zpow_right₀ one_le_two hE) (two_zpow_pos _).le
      (Nat.cast_nonneg M)
  have hlength : 52 ≤ (M * 2 ^ j).log2 ∨ E - j ≤ -1074 := by
    rw [log2_mul_pow hM]
    rw [targetExponent_eq] at hj
    omega
  obtain ⟨m, e, hm, hround, hrounded, -⟩ :=
    exists_round s hlength Nat.one_pos ⟨by decide, le_rfl, .inr rfl⟩ hvalue
  refine ⟨m, e, hm, ?_, hrounded⟩
  rw [← hround]
  simp only [UnpackedFloat.round, decreaseExponent, hj, Nat.shiftLeft_eq]

end Round

/-- A rounded form whose exponent is too great is packed as an infinity. -/
theorem unpack_pack_rounded {s : Sign} {m : Nat} {e : Int} {hm : 0 < m} (h : IsRounded m e) :
    (Float.Model.pack (.finite s m e hm)).unpack =
      if e ≤ 971 then .finite s m e hm else .infinity s := by
  split
  · next he => exact unpack_pack (isCanonical_finite_iff.2 ⟨h, he⟩)
  · next he =>
    have hinf : UnpackedFloat.pack Format.binary64 (.finite s m e hm) =
        UnpackedFloat.pack Format.binary64 (.infinity s) := by
      rw [pack_finite, if_pos (by omega)]
      rfl
    have hpack : Float.Model.pack (.finite s m e hm) = Float.Model.pack (.infinity s) := by
      simp only [Float.Model.pack, hinf]
    rw [hpack]
    exact unpack_pack trivial

/-! ## Differences and products -/

/-- The value of a finite form at a lower exponent. -/
theorem formValue_decreased (s : Sign) {m : Nat} {e c : Int} (hm : 0 < m) (hc : c ≤ e) :
    formValue (.finite s m e hm) = (s.apply (decreaseExponent m e c).1 : ℤ) * 2 ^ c := by
  obtain ⟨j, rfl⟩ : ∃ j : Nat, e = c + j := ⟨(e - c).toNat, by omega⟩
  have hj : (c + j - c).toNat = j := by omega
  have hvalue : (m * 2 ^ (c + j : ℤ) : ℚ) = (m <<< j : ℕ) * 2 ^ c := by
    rw [Nat.shiftLeft_eq, zpow_add₀ two_ne_zero, zpow_natCast]
    push_cast
    ring
  cases s with
  | positive =>
    simp only [formValue, Sign.apply, decreaseExponent, hj, Int.cast_natCast]
    exact hvalue
  | negative =>
    simp only [formValue, Sign.apply, decreaseExponent, hj, Int.cast_neg, Int.cast_natCast, neg_mul]
    exact congrArg Neg.neg hvalue

/-- The difference of different numbers is not rounded to zero. -/
theorem exists_sub {u v : UnpackedFloat} (hu : IsCanonical u) (hv : IsCanonical v)
    (hu' : u.isFinite = true) (hv' : v.isFinite = true) (hne : formValue u ≠ formValue v) :
    ∃ s m e hm, UnpackedFloat.sub Format.binary64 u v = .finite s m e hm ∧ IsRounded m e := by
  cases u with
  | notANumber | infinity s => cases hu'
  | zero s =>
    cases v with
    | notANumber | infinity t => cases hv'
    | zero t => exact absurd rfl hne
    | finite t n f hn => exact ⟨-t, n, f, hn, rfl, (isCanonical_finite_iff.1 hv).1⟩
  | finite s m e hm =>
    cases v with
    | notANumber | infinity t => cases hv'
    | zero t => exact ⟨s, m, e, hm, rfl, (isCanonical_finite_iff.1 hu).1⟩
    | finite t n f hn =>
      have hmin : -1074 ≤ min e f := by
        obtain ⟨⟨-, he, -⟩, -⟩ := isCanonical_finite_iff.1 hu
        obtain ⟨⟨-, hf, -⟩, -⟩ := isCanonical_finite_iff.1 hv
        omega
      -- At the lesser of the two exponents the difference is one of integers.
      rw [formValue_decreased s hm (min_le_left e f), formValue_decreased t hn (min_le_right e f)]
        at hne
      simp only [UnpackedFloat.sub, UnpackedFloat.normalize]
      generalize s.apply (decreaseExponent m e (min e f)).1 = a at *
      generalize t.apply (decreaseExponent n f (min e f)).1 = b at *
      rcases lt_trichotomy (a - b) 0 with h | h | h
      · rw [compare_lt_iff_lt.2 h]
        exact ⟨_, exists_round_of_pos .negative (by omega) hmin⟩
      · rw [sub_eq_zero.1 h] at hne
        exact absurd rfl hne
      · rw [compare_gt_iff_gt.2 h]
        exact ⟨_, exists_round_of_pos .positive (by omega) hmin⟩

section Finite

variable {x y : Float} (hx : isFinite x = true) (hy : isFinite y = true)

include hx hy

/-- Finite doubles without a distance are equal. -/
theorem beq_of_sub_beq_zero (h : (x - y == 0) = true) : (x == y) = true := by
  rw [beq_iff_value hx hy]
  by_contra hne
  obtain ⟨s, m, e, hm, hsub, hrounded⟩ := exists_sub (isCanonical_unpacked x)
    (isCanonical_unpacked y) (isFinite_iff.1 hx) (isFinite_iff.1 hy) hne
  obtain ⟨t, hzero⟩ := beq_zero_iff.1 h
  have hpack : unpacked (x - y) = (Float.Model.pack (.finite s m e hm)).unpack :=
    congrArg (fun u => (Float.Model.pack u).unpack) hsub
  rw [hpack, unpack_pack_rounded hrounded] at hzero
  split at hzero <;> cases hzero

end Finite

/-- Products of mantissas are long enough to be rounded by cutting off. -/
theorem IsRounded.mul_length {m n : Nat} {e f : Int} (h : IsRounded m e) (h' : IsRounded n f)
    (hm : 0 < m) (hn : 0 < n) : 52 ≤ (m * n).log2 ∨ e + f ≤ -1074 := by
  have hlog : 2 ^ 52 ≤ m * n → 52 ≤ (m * n).log2 :=
    (Nat.le_log2 (Nat.ne_of_gt (Nat.mul_pos hm hn))).2
  rcases h.2.2 with h | h
  · exact .inl (hlog (h.trans (Nat.le_mul_of_pos_right m hn)))
  · rcases h'.2.2 with h' | h'
    · exact .inl (hlog (h'.trans (Nat.le_mul_of_pos_left n hm)))
    · exact .inr (by omega)

section Product

variable {x y : Float}

/-- A product with a number that is not below one is not below the other factor. It can be infinite.
-/
theorem le_mul (hx : 0 < value x) (hy : 1 ≤ value y) :
    unpacked (y * x) = .infinity .positive ∨
      isFinite (y * x) = true ∧ value x ≤ value (y * x) := by
  obtain ⟨m, e, hm, hu⟩ := exists_finite_of_pos hx
  obtain ⟨n, f, hn, hv⟩ := exists_finite_of_pos (zero_lt_one.trans_le hy)
  have hm' := (isCanonical_finite_iff.1 (hu ▸ isCanonical_unpacked x)).1
  have hn' := (isCanonical_finite_iff.1 (hv ▸ isCanonical_unpacked y)).1
  have hle : (m * 2 ^ e : ℚ) ≤ (n * m : ℕ) * 2 ^ (f + e) := by
    have hone : (1 : ℚ) ≤ n * 2 ^ f := by
      rwa [value, hv] at hy
    calc (m * 2 ^ e : ℚ) ≤ n * 2 ^ f * (m * 2 ^ e) :=
        le_mul_of_one_le_left (formValue_pos e hm).le hone
      _ = (n * m : ℕ) * 2 ^ (f + e) := by
        rw [zpow_add₀ two_ne_zero]
        push_cast
        ring
  obtain ⟨r, t, hr, hround, hrounded, hvalue, -⟩ :=
    exists_round .positive (hn'.mul_length hm' hn hm) hm hm' hle
  have hmul : UnpackedFloat.mul Format.binary64 (unpacked y) (unpacked x) =
      .finite .positive r t hr := by
    rw [hu, hv]
    exact hround
  have hpack : unpacked (y * x) = (Float.Model.pack (.finite .positive r t hr)).unpack :=
    congrArg (fun u => (Float.Model.pack u).unpack) hmul
  rw [unpack_pack_rounded hrounded] at hpack
  -- The product can have an exponent that is too great for a double.
  split at hpack
  · refine .inr ⟨isFinite_iff.2 (by rw [hpack]; rfl), ?_⟩
    rw [value, value, hpack, hu]
    exact hvalue
  · exact .inl hpack

/-- A product of a positive number with one that is not negative is not negative. The other factor
can be infinite. -/
theorem mul_nonneg_of_pos (hx : 0 < value x) (hy : 0 ≤ y) : 0 ≤ x * y := by
  obtain ⟨m, e, hm, hu⟩ := exists_finite_of_pos hx
  have hx' : isFinite x = true := isFinite_iff.2 (by rw [hu]; rfl)
  have hx'' : 0 ≤ x := zero_le_iff.2 (by rw [hu]; rfl)
  by_cases hy' : isFinite y = true
  · exact mul_nonneg hx'' hy hx' hy'
  · rw [isFinite_iff] at hy'
    rw [zero_le_iff] at *
    cases hv : unpacked y with
    | notANumber => rw [hv] at hy; cases hy
    | zero t | finite t n f hn => rw [hv] at hy'; exact absurd rfl hy'
    | infinity t =>
      rw [hv] at hy
      cases hy
      have hmul : unpacked (x * y) = .infinity .positive :=
        unpacked_mul (by rw [hu, hv]; rfl) trivial
      rw [hmul]
      rfl

/-- A product that is a double is not rounded. -/
theorem mul_eq_of_value {z : Float} (hx : 0 < value x) (hy : 0 < value y)
    (h : value z = value x * value y) : x * y = z := by
  obtain ⟨m, e, hm, hu⟩ := exists_finite_of_pos hx
  obtain ⟨n, f, hn, hv⟩ := exists_finite_of_pos hy
  obtain ⟨r, t, hr, hw⟩ := exists_finite_of_pos (h ▸ mul_pos hx hy : 0 < value z)
  have hm' := (isCanonical_finite_iff.1 (hu ▸ isCanonical_unpacked x)).1
  have hn' := (isCanonical_finite_iff.1 (hv ▸ isCanonical_unpacked y)).1
  have hr' := hw ▸ isCanonical_unpacked z
  have hvalue : (r * 2 ^ t : ℚ) = (m * n : ℕ) * 2 ^ (e + f) := by
    simp only [value, hu, hv, hw, formValue] at h
    rw [h, zpow_add₀ two_ne_zero]
    push_cast
    ring
  -- At a lesser exponent the double would need more bits than a mantissa has.
  have hle : e + f ≤ t := by
    by_contra hlt
    have hlong : 2 ^ 52 ≤ m * n := by
      have hlog := (hm'.mul_length hn' hm hn).resolve_right (by have := hr'.2.1; omega)
      exact (Nat.le_log2 (Nat.ne_of_gt (Nat.mul_pos hm hn))).1 hlog
    have hnext : ((r + 1 : ℕ) * 2 ^ t : ℚ) ≤ (m * n : ℕ) * 2 ^ (e + f) :=
      mul_zpow_le (by have := hr'.1; omega) (not_le.1 hlt)
    have hless : (r * 2 ^ t : ℚ) < (r + 1 : ℕ) * 2 ^ t :=
      mul_lt_mul_of_pos_right (Nat.cast_lt.2 (Nat.lt_succ_self r)) (two_zpow_pos t)
    exact absurd hvalue (hless.trans_le hnext).ne
  obtain ⟨k, rfl⟩ : ∃ k : Nat, t = e + f + k := ⟨(t - (e + f)).toNat, by omega⟩
  have hproduct : m * n = r * 2 ^ k := by
    have hcancel : ((m * n : ℕ) : ℚ) = r * 2 ^ k := by
      apply mul_right_cancel₀ (two_zpow_pos (e + f)).ne'
      rw [← hvalue, zpow_add₀ two_ne_zero (e + f), zpow_natCast]
      ring
    exact_mod_cast hcancel
  have hround := round_scaled .positive hr hr' k
  rw [← hproduct, add_sub_cancel_right] at hround
  refine unpacked_injective (unpacked_mul ?_ (isCanonical_unpacked z))
  rw [hu, hv, hw]
  exact hround

end Product

end SignalCalc.Double
