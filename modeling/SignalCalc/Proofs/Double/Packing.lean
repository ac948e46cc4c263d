import Mathlib
import SignalCalc.Elementary

/-!
# Packing and unpacking doubles

A double is stored as 64 bits and unpacked for arithmetic. Its unpacked form is canonical, and a
canonical form is what unpacking gives back after packing. So what an operation does to unpacked
forms is what it does to doubles, once its result is known to be canonical.

Main definitions: `ofFields`, `IsCanonical`. Main statements: `unpack_pack`, `isCanonical_unpack`.
-/

namespace SignalCalc.Double

open Float.Model Float.Model.UnpackedFloat

/-! ## Fields -/

/-- The unpacked form with given fields. The greatest exponent is that of infinities, the least one
that of zeros and subnormal numbers. -/
def ofFields (s : Sign) (e m : Nat) : UnpackedFloat :=
  if e = 2047 then
    if m = 0 then .infinity s else .notANumber
  else if e = 0 then
    if h : m = 0 then .zero s else .finite s m (-1074) (Nat.pos_of_ne_zero h)
  else .finite s (2 ^ 52 + m) (e - 1075) (by omega)

/-- A double is unpacked field by field. -/
theorem unpack_eq_ofFields (b : BitVec 64) :
    UnpackedFloat.unpack Format.binary64 b =
      ofFields (Sign.ofBitVec (@unpackSign .binary64 b))
        (@unpackExponent .binary64 b).toNat
        (@unpackMantissa .binary64 b).toNat := by
  have hm (m : BitVec 52) : (1#1 ++ m).toNat = 2 ^ 52 + m.toNat := by
    rw [BitVec.toNat_append, ← Nat.shiftLeft_add_eq_or_of_lt m.isLt]
    rfl
  simp only [UnpackedFloat.unpack, ofFields, hm, ← BitVec.toNat_inj]
  split
  · next he => exact (if_pos he).symm
  · next he =>
    split
    · next he' =>
      refine Eq.trans ?_ ((if_neg he).trans (if_pos he')).symm
      simp only [he']
      rfl
    · next he' => exact ((if_neg he).trans (if_neg he')).symm

/-- The three fields of a word are found again when it is unpacked. -/
theorem unpack_packComponents (s : Sign) (e : BitVec 11) (m : BitVec 52) :
    UnpackedFloat.unpack Format.binary64 (packComponents Format.binary64 s e m) =
      ofFields s e.toNat m.toNat := by
  rw [unpack_eq_ofFields, unpackSign_packComponents, unpackExponent_packComponents,
    unpackMantissa_packComponents, Sign.ofBitVec_toBitVec]

/-! ## Canonical forms -/

/-- The unpacked forms that stand for doubles: a finite number has the least exponent that leaves it
at most 53 bits, but not below the range. -/
def IsCanonical : UnpackedFloat → Prop
  | .finite _ m e _ => m < 2 ^ 53 ∧ -1074 ≤ e ∧ e ≤ 971 ∧ (2 ^ 52 ≤ m ∨ e = -1074)
  | _ => True

/-- Fields that fit into a word have a canonical form. -/
theorem isCanonical_ofFields (s : Sign) {e m : Nat} (he : e < 2 ^ 11) (hm : m < 2 ^ 52) :
    IsCanonical (ofFields s e m) := by
  unfold ofFields
  split
  · split <;> trivial
  · split
    · split
      · trivial
      · exact ⟨by omega, by decide, by decide, .inr rfl⟩
    · exact ⟨by omega, by omega, by omega, .inl (by omega)⟩

/-- How finite numbers are packed: too great a one as infinity, the others by their fields. -/
theorem pack_finite (s : Sign) {m : Nat} (e : Int) (hm : 0 < m) :
    UnpackedFloat.pack Format.binary64 (.finite s m e hm) =
      if 2 ^ 11 ≤ (e + 1023 + 52).toNat + 1 then packedInfinity Format.binary64 s
      else if m.log2 + 1 = 53 then
        packComponents Format.binary64 s (BitVec.ofNat 11 (e + 1023 + 52).toNat) (BitVec.ofNat 52 m)
      else packComponents Format.binary64 s 0#11 (BitVec.ofNat 52 m) :=
  rfl

/-- A normal number is packed without its leading bit, which its exponent implies. -/
theorem pack_of_normal {s : Sign} {m : Nat} {e : Int} (hm : 0 < m) (h : 2 ^ 52 ≤ m)
    (h' : m < 2 ^ 53) (he : -1074 ≤ e) (he' : e ≤ 971) :
    UnpackedFloat.pack Format.binary64 (.finite s m e hm) =
      packComponents Format.binary64 s (BitVec.ofNat 11 (e + 1075).toNat) (BitVec.ofNat 52 m) := by
  have hl : m.log2 = 52 := (Nat.log2_eq_iff (by omega)).2 ⟨h, h'⟩
  have hs : e + 1023 + 52 = e + 1075 := by omega
  rw [pack_finite, if_neg (by omega), if_pos (by omega), hs]

/-- A subnormal number is packed with all its bits under the exponent zero. -/
theorem pack_of_subnormal {s : Sign} {m : Nat} (hm : 0 < m) (h : m < 2 ^ 52) :
    UnpackedFloat.pack Format.binary64 (.finite s m (-1074) hm) =
      packComponents Format.binary64 s 0#11 (BitVec.ofNat 52 m) := by
  have hl : m.log2 < 52 := (Nat.log2_lt (by omega)).2 h
  rw [pack_finite, if_neg (by decide), if_neg (by omega)]

/-- Unpacking undoes packing on canonical forms. -/
theorem unpack_pack {u : UnpackedFloat} (h : IsCanonical u) : (Float.Model.pack u).unpack = u := by
  show UnpackedFloat.unpack Format.binary64 (UnpackedFloat.pack Format.binary64 u) = u
  cases u with
  | notANumber => rw [UnpackedFloat.pack, packedNaN, unpack_packComponents]; rfl
  | infinity s => rw [UnpackedFloat.pack, packedInfinity, unpack_packComponents]; rfl
  | zero s => rw [UnpackedFloat.pack, packedZero, unpack_packComponents]; rfl
  | finite s m e hm =>
    obtain ⟨h₁, h₂, h₃, h₄⟩ := h
    rcases Nat.lt_or_ge m (2 ^ 52) with h | h
    · obtain rfl : e = -1074 := by omega
      rw [pack_of_subnormal hm h, unpack_packComponents, BitVec.toNat_ofNat, BitVec.toNat_ofNat,
        Nat.mod_eq_of_lt h]
      exact (if_neg (by decide)).trans ((if_pos rfl).trans (dif_neg (by omega)))
    · rw [pack_of_normal hm h h₁ h₂ h₃, unpack_packComponents, BitVec.toNat_ofNat,
        BitVec.toNat_ofNat, Nat.mod_eq_of_lt (by omega : (e + 1075).toNat < 2 ^ 11), ofFields,
        if_neg (by omega), if_neg (by omega)]
      congr 1 <;> omega

/-- A double is canonical as it is unpacked. -/
theorem isCanonical_unpack (x : Float.Model) : IsCanonical x.unpack := by
  show IsCanonical (UnpackedFloat.unpack Format.binary64 x.toBits.toBitVec)
  rw [unpack_eq_ofFields]
  exact isCanonical_ofFields _ (BitVec.isLt _) (BitVec.isLt _)

end SignalCalc.Double
