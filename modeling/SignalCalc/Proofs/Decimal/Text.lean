import SignalCalc.Decimal.Text
import SignalCalc.Proofs.Decimal.Literal
import SignalCalc.Proofs.Double.Arithmetic

/-!
# Texts of numbers as literals

The text of a finite number that is not negative is a literal without an exponent. Before anything
that does not go on with a number such a literal is read as it stands, so what follows a number in a
text does not change the number.

Main definition: `Literal.IsPlain`. Main statements: `Literal.read_append`,
`Double.text_abs_eq_chars`.
-/

namespace SignalCalc

/-! ## Plain literals -/

/-- A literal of digits, with or without a point. -/
structure Literal.IsPlain (l : Literal) : Prop where
  whole_ne_nil : l.whole ≠ []
  whole : ∀ c ∈ l.whole, isDigit c = true
  fraction : ∀ cs, l.fraction = some cs → ∀ c ∈ cs, isDigit c = true
  exponent : l.exponent = none

/-- A plain literal has a digit. -/
theorem Literal.IsPlain.chars_ne_nil {l : Literal} (h : l.IsPlain) : l.chars ≠ [] := by
  simp [Literal.chars, h.whole_ne_nil]

/-- A plain literal is well formed. -/
theorem Literal.IsPlain.isWellFormed {l : Literal} (h : l.IsPlain) : l.IsWellFormed := by
  have he (e : Exponent) : l.exponent ≠ some e := by simp [h.exponent]
  exact ⟨h.whole, h.fraction, fun e hs => absurd hs (he e), fun e _ hs => absurd hs (he e),
    fun e hs => absurd hs (he e)⟩

/-- A plain literal is read off a text that does not go on with it. -/
theorem Literal.read_append {l : Literal} (h : l.IsPlain) {rest : List Char}
    (hr : EndsNumber rest) : Literal.read (l.chars ++ rest) = l :=
  read_chars_append h.isWellFormed (by simp [isComplete, h.exponent]) hr

/-! ## Texts of decimals -/

/-- The decimal digits of a number are digit characters. -/
theorem isDigit_of_mem_toDigits {n : Nat} {c : Char} (h : c ∈ Nat.toDigits 10 n) :
    isDigit c = true := by
  have hc := Nat.isDigit_of_mem_toDigits (by decide) (by decide) h
  rw [Char.isDigit, Bool.and_eq_true, decide_eq_true_iff, decide_eq_true_iff] at hc
  exact Bool.and_eq_true_iff.2 ⟨decide_eq_true hc.1, decide_eq_true hc.2⟩

/-- The digits of a natural number are a literal of it. -/
theorem isPlain_toDigits (n : Nat) : (⟨Nat.toDigits 10 n, none, none⟩ : Literal).IsPlain :=
  ⟨Nat.toDigits_ne_nil, fun _ h => isDigit_of_mem_toDigits h, nofun, rfl⟩

/-- The digits of a number have the number as their value. -/
theorem digitsValue_toDigits (n : Nat) : digitsValue (Nat.toDigits 10 n) = n :=
  Nat.ofDigitChars_ten_toDigits

/-- A literal that consists of the digits of a number has the number as its value. -/
theorem value_toDigits {α : Type} [OfScientific α] (n : Nat) :
    (⟨Nat.toDigits 10 n, none, none⟩ : Literal).value (α := α) =
      OfScientific.ofScientific n false 0 := by
  simp [Literal.value, digitsValue_toDigits]

/-- The positional text of a decimal is a plain literal. -/
theorem Decimal.positional_eq_chars (d : Decimal) :
    ∃ l : Literal, l.IsPlain ∧ d.positional.toList = l.chars := by
  have hz (n : Nat) : ∀ c ∈ List.replicate n '0', isDigit c = true := by
    intro c hc
    rw [List.eq_of_mem_replicate hc]
    rfl
  have hd : ∀ c ∈ Nat.toDigits 10 d.coefficient, isDigit c = true :=
    fun c => isDigit_of_mem_toDigits
  unfold positional
  simp only
  -- Without a fraction zeros are added at the end, with one they are added in front.
  split
  · generalize (if d.coefficient = 0 then 0 else d.exponent.toNat) = zeros
    refine ⟨⟨Nat.toDigits 10 d.coefficient ++ List.replicate zeros '0', none, none⟩, ?_, ?_⟩
    · exact ⟨by simp [Nat.toDigits_ne_nil], List.forall_mem_append.2 ⟨hd, hz _⟩, nofun, rfl⟩
    · simp [Literal.chars]
  · generalize hp : List.replicate _ '0' ++ Nat.toDigits 10 d.coefficient = padded
    have hpd : ∀ c ∈ padded, isDigit c = true := by
      rw [← hp]
      exact List.forall_mem_append.2 ⟨hz _, hd⟩
    have hl : (-d.exponent).toNat < padded.length := by
      rw [← hp, List.length_append, List.length_replicate]
      omega
    generalize hw : padded.length - (-d.exponent).toNat = whole
    have hn : padded.take whole ≠ [] := by
      refine List.ne_nil_of_length_pos ?_
      rw [List.length_take]
      omega
    refine ⟨⟨padded.take whole, some (padded.drop whole), none⟩, ⟨hn, ?_, ?_, rfl⟩, ?_⟩
    · exact fun c hc => hpd c (List.mem_of_mem_take hc)
    · rintro cs ⟨⟩ c hc
      exact hpd c (List.mem_of_mem_drop hc)
    · simp [Literal.chars]

/-! ## Texts of doubles -/

namespace Double

open Float.Model Float.Model.UnpackedFloat

/-- The bits of a double give the sign and the fields of its unpacked form. -/
theorem unpacked_eq_ofFields (x : Float) :
    unpacked x = ofFields (if x.toBits.toNat.testBit 63 then .negative else .positive)
      (x.toBits.toNat / 2 ^ 52 % 2048) (x.toBits.toNat % 2 ^ 52) := by
  have hb (b : BitVec 64) :
      Sign.ofBitVec (@unpackSign .binary64 b) =
          (if b.toNat.testBit 63 then .negative else .positive) ∧
        (@unpackExponent .binary64 b).toNat = b.toNat / 2 ^ 52 % 2048 ∧
        (@unpackMantissa .binary64 b).toNat = b.toNat % 2 ^ 52 := by
    refine ⟨?_, ?_, ?_⟩
    · have hv : @unpackSign .binary64 b = BitVec.ofBool (b.toNat.testBit 63) := by
        refine BitVec.eq_of_getLsbD_eq fun i hi => ?_
        obtain rfl : i = 0 := by omega
        show (b.extractLsb 63 63).getLsbD 0 = (BitVec.ofBool (b.toNat.testBit 63)).getLsbD 0
        rw [BitVec.getLsbD_extractLsb, BitVec.getLsbD_ofBool]
        simp [BitVec.getLsbD]
      rw [hv]
      cases b.toNat.testBit 63 <;> rfl
    · rw [unpackExponent, BitVec.toNat_cast, BitVec.extractLsb_toNat, Nat.shiftRight_eq_div_pow]
      rfl
    · rw [unpackMantissa, BitVec.toNat_cast, BitVec.extractLsb_toNat, Nat.shiftRight_eq_div_pow]
      simp
  obtain ⟨hs, he, hm⟩ := hb x.toBits.toBitVec
  show UnpackedFloat.unpack Format.binary64 x.toBits.toBitVec = _
  rw [unpack_eq_ofFields, hs, he, hm]
  rfl

/-- The form of magnitudes of finite numbers. -/
def IsMagnitude : UnpackedFloat → Prop
  | .notANumber | .infinity _ => False
  | .zero s | .finite s _ _ _ => s = .positive

/-- The magnitude of a finite number is finite and has no sign. -/
theorem isMagnitude_abs {x : Float} (h : isFinite x = true) : IsMagnitude (unpacked x.abs) := by
  rw [isFinite_iff] at h
  rw [unpacked_abs]
  cases hu : unpacked x with
  | notANumber | infinity s => rw [hu] at h; cases h
  | zero s | finite s m e hm => rfl

/-- Fields that make a finite number without a sign have a positive sign, and not the exponent of
infinities. -/
theorem IsMagnitude.of_ofFields {s : Sign} {e m : Nat} (h : IsMagnitude (ofFields s e m)) :
    e ≠ 2047 ∧ s = .positive := by
  unfold ofFields at h
  split at h
  · split at h <;> exact h.elim
  · next he =>
    refine ⟨he, ?_⟩
    split at h
    · split at h <;> exact h
    · exact h

/-- The magnitude of a finite number is shown as a plain literal. -/
theorem text_abs_eq_chars {x : Float} (h : isFinite x = true) :
    ∃ l : Literal, l.IsPlain ∧ (NumberText.text x.abs).toList = l.chars := by
  have hm := isMagnitude_abs h
  have ht : NumberText.text x.abs = (Binary64.ofBits x.abs.toBits.toNat).text := rfl
  rw [unpacked_eq_ofFields] at hm
  rw [ht]
  generalize x.abs.toBits.toNat = bits at hm
  obtain ⟨he, hs⟩ := hm.of_ofFields
  obtain ⟨m, e, hb⟩ : ∃ m e, Binary64.ofBits bits = .finite false m e := by
    have he : ¬bits / Binary64.hiddenBit % (Binary64.topExponent + 1) = Binary64.topExponent := he
    have hs : bits.testBit 63 = false := by
      cases hb : bits.testBit 63 with
      | false => rfl
      | true => rw [hb] at hs; cases hs
    simp only [Binary64.ofBits, if_neg he, hs]
    split <;> exact ⟨_, _, rfl⟩
  rw [hb]
  exact Decimal.positional_eq_chars _

end Double

end SignalCalc
