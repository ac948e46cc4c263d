import Mathlib.Data.List.TakeWhile
import SignalCalc.Decimal.Literal

/-!
# Literals as decimal syntax

`IsDecimal` is the syntax of decimal numbers: digits with at most one point among them, at least one
digit, and an exponent with digits or none. Whatever text a literal is read off, the literal is the
beginning of the text, and it is a decimal if it starts as a number and its exponent is complete. A
complete literal is read as it stands before every text that does not go on with it.

Main definitions: `IsDecimal`, `EndsNumber`. Main statements: `Literal.isPrefix_read`,
`Literal.isDecimal_chars`, `Literal.read_chars_append`.
-/

namespace SignalCalc

/-! ## Decimal syntax -/

/-- Digits and nothing else. -/
def IsDigits (ds : List Char) : Prop := ∀ d ∈ ds, isDigit d = true

/-- Digits with at most one point before, among or behind them. -/
inductive IsMantissa : List Char → Prop where
  | whole {ds : List Char} : ds ≠ [] → IsDigits ds → IsMantissa ds
  | point {ds fs : List Char} : ds ≠ [] ∨ fs ≠ [] → IsDigits ds → IsDigits fs →
      IsMantissa (ds ++ '.' :: fs)

/-- A mark, a sign or none, and digits; or nothing at all. -/
inductive IsExponent : List Char → Prop where
  | none : IsExponent []
  | some {mark : Char} {sign ds : List Char} : mark = 'e' ∨ mark = 'E' →
      sign = [] ∨ sign = ['+'] ∨ sign = ['-'] → ds ≠ [] → IsDigits ds →
      IsExponent (mark :: (sign ++ ds))

/-- A decimal number. -/
def IsDecimal (cs : List Char) : Prop :=
  ∃ mantissa exponent, cs = mantissa ++ exponent ∧ IsMantissa mantissa ∧ IsExponent exponent

/-- Texts that do not go on with a number. -/
def EndsNumber (rest : List Char) : Prop :=
  ∀ c, rest.head? = some c → isDigit c = false ∧ c ≠ '.' ∧ c ≠ 'e' ∧ c ≠ 'E'

/-- Whether a number starts at the head of a text: with a digit, or with a point before one. -/
def startsNumber (c : Char) (cs : List Char) : Bool :=
  isDigit c || (c == '.' && cs.head?.any isDigit)

/-! ## What is read -/

/-- A text is a run of characters before a rest that starts with none of them. -/
theorem takeWhile_dropWhile_spec (p : Char → Bool) (cs : List Char) :
    cs = cs.takeWhile p ++ cs.dropWhile p ∧ (∀ c ∈ cs.takeWhile p, p c = true) ∧
      ∀ c, (cs.dropWhile p).head? = some c → p c = false := by
  refine ⟨List.takeWhile_append_dropWhile.symm, fun c hc => List.mem_takeWhile_imp hc,
    fun c hc => ?_⟩
  have hnot := List.head?_dropWhile_not p cs
  rw [hc] at hnot
  simpa using hnot

/-- The digits in front of a text are digits. -/
theorem isDigits_takeWhile (cs : List Char) : IsDigits (cs.takeWhile isDigit) :=
  (takeWhile_dropWhile_spec isDigit cs).2.1

/-- A run of characters ends where the next one is none of them. -/
theorem takeWhile_append_of_head {p : Char → Bool} {xs rest : List Char}
    (hx : ∀ c ∈ xs, p c = true) (hr : ∀ c, rest.head? = some c → p c = false) :
    (xs ++ rest).takeWhile p = xs ∧ (xs ++ rest).dropWhile p = rest := by
  rw [List.takeWhile_append_of_pos hx, List.dropWhile_append_of_pos hx]
  cases rest with
  | nil => simp
  | cons c rest => simp [hr c rfl]

/-- The parts of a literal are what they are called. -/
structure Literal.IsWellFormed (l : Literal) : Prop where
  whole : IsDigits l.whole
  fraction : ∀ fs, l.fraction = some fs → IsDigits fs
  mark : ∀ e, l.exponent = some e → e.mark = 'e' ∨ e.mark = 'E'
  sign : ∀ e c, l.exponent = some e → e.sign = some c → c = '+' ∨ c = '-'
  digits : ∀ e, l.exponent = some e → IsDigits e.digits

/-- There is a digit before or behind the point. -/
def Literal.HasDigits (l : Literal) : Prop :=
  l.whole ≠ [] ∨ ∃ fs, l.fraction = some fs ∧ fs ≠ []

/-- An exponent is the beginning of the text that it is read off. -/
theorem Exponent.of_read? {cs : List Char} {e : Exponent} (h : read? cs = some e) :
    e.chars <+: cs ∧ (e.mark = 'e' ∨ e.mark = 'E') ∧ (∀ c, e.sign = some c → c = '+' ∨ c = '-') ∧
      IsDigits e.digits := by
  cases cs with
  | nil => cases h
  | cons mark cs =>
    dsimp only [read?] at h
    split at h
    · next hm =>
      split at h
      · cases h
        exact ⟨List.prefix_rfl, hm, nofun, nofun⟩
      · next c rest =>
        split at h <;> cases h
        · next hc =>
          refine ⟨?_, hm, by rintro _ ⟨⟩; exact hc, isDigits_takeWhile _⟩
          simpa [chars] using List.takeWhile_prefix isDigit
        · refine ⟨?_, hm, nofun, isDigits_takeWhile _⟩
          simpa [chars] using List.takeWhile_prefix isDigit
    · cases h

/-- A text that does not go on a number has no exponent in front. -/
theorem Exponent.read?_eq_none {rest : List Char} (h : EndsNumber rest) :
    Exponent.read? rest = none := by
  cases rest with
  | nil => rfl
  | cons c rest =>
    obtain ⟨-, -, h₁, h₂⟩ := h c rfl
    simp [Exponent.read?, h₁, h₂]

/-- An exponent with digits is read off every text that does not go on with them. -/
theorem Exponent.read?_chars_append {e : Exponent} (hm : e.mark = 'e' ∨ e.mark = 'E')
    (hs : ∀ c, e.sign = some c → c = '+' ∨ c = '-') (hd : IsDigits e.digits) (hne : e.digits ≠ [])
    {rest : List Char} (hr : ∀ c, rest.head? = some c → isDigit c = false) :
    read? (e.chars ++ rest) = some e := by
  obtain ⟨mark, sign, digits⟩ := e
  obtain ⟨ht, -⟩ := takeWhile_append_of_head hd hr
  cases sign with
  | none =>
    obtain ⟨d, ds, rfl⟩ := List.exists_cons_of_ne_nil hne
    have hsign : ¬(d = '+' ∨ d = '-') := by
      have hdigit : isDigit d = true := hd d List.mem_cons_self
      rintro (rfl | rfl) <;> exact absurd hdigit (by decide)
    show (if mark = 'e' ∨ mark = 'E' then if d = '+' ∨ d = '-' then _ else _ else _) = _
    rw [if_pos hm, if_neg hsign]
    exact congrArg (fun ds => some (⟨mark, none, ds⟩ : Exponent)) ht
  | some c =>
    show (if mark = 'e' ∨ mark = 'E' then if c = '+' ∨ c = '-' then _ else _ else _) = _
    rw [if_pos hm, if_pos (hs c rfl)]
    exact congrArg (fun ds => some (⟨mark, some c, ds⟩ : Exponent)) ht

namespace Literal

/-- Whatever the text, the literal that is read off its front is well formed. -/
theorem isWellFormed_read (cs : List Char) : (read cs).IsWellFormed := by
  have he (rest : List Char) (e : Exponent) (h : Exponent.read? rest = some e) :=
    (Exponent.of_read? h).2
  unfold read
  split
  · next rest _ =>
    refine ⟨isDigits_takeWhile _, ?_, fun e h => (he _ e h).1, fun e c h => (he _ e h).2.1 c,
      fun e h => (he _ e h).2.2⟩
    rintro _ ⟨⟩
    exact isDigits_takeWhile _
  · exact ⟨isDigits_takeWhile _, nofun, fun e h => (he _ e h).1, fun e c h => (he _ e h).2.1 c,
      fun e h => (he _ e h).2.2⟩

/-- A literal is the beginning of the text that it is read off. -/
theorem isPrefix_read (cs : List Char) : (read cs).chars <+: cs := by
  have he (rest : List Char) : (Exponent.read? rest).elim [] Exponent.chars <+: rest := by
    cases h : Exponent.read? rest with
    | none => exact List.nil_prefix
    | some e => exact (Exponent.of_read? h).1
  have hspan := List.takeWhile_append_dropWhile (p := isDigit) (l := cs)
  unfold read
  split
  · next rest hd =>
    have hf := List.takeWhile_append_dropWhile (p := isDigit) (l := rest)
    obtain ⟨t, ht⟩ := he (rest.dropWhile isDigit)
    refine ⟨t, ?_⟩
    calc _ = cs.takeWhile isDigit ++ '.' :: (rest.takeWhile isDigit ++
            ((Exponent.read? (rest.dropWhile isDigit)).elim [] Exponent.chars ++ t)) := by
          simp [chars]
      _ = cs := by rw [ht, hf, ← hd, hspan]
  · obtain ⟨t, ht⟩ := he (cs.dropWhile isDigit)
    refine ⟨t, ?_⟩
    calc _ = cs.takeWhile isDigit ++
            ((Exponent.read? (cs.dropWhile isDigit)).elim [] Exponent.chars ++ t) := by
          simp [chars]
      _ = cs := by rw [ht, hspan]

/-- What starts as a number has a digit before or behind the point. -/
theorem hasDigits_read {c : Char} {cs : List Char} (h : startsNumber c cs = true) :
    (read (c :: cs)).HasDigits := by
  rw [startsNumber, Bool.or_eq_true, Bool.and_eq_true, beq_iff_eq, Option.any_eq_true] at h
  rcases h with h | ⟨rfl, d, hd, hdigit⟩
  · left
    unfold read
    split <;> simp [h]
  · right
    obtain ⟨cs', rfl⟩ : ∃ cs', cs = d :: cs' := by
      cases cs with
      | nil => cases hd
      | cons c cs => cases hd; exact ⟨cs, rfl⟩
    have hp : isDigit '.' = false := by decide
    simp [read, hp, hdigit]

/-- A literal with digits, and with digits in its exponent if it has one, is a decimal number. -/
theorem isDecimal_chars {l : Literal} (hwf : l.IsWellFormed) (hdigits : l.HasDigits)
    (hc : l.isComplete = true) : IsDecimal l.chars := by
  refine ⟨l.whole ++ l.fraction.elim [] ('.' :: ·), l.exponent.elim [] Exponent.chars, rfl, ?_, ?_⟩
  · cases hf : l.fraction with
    | none =>
      have hw : l.whole ≠ [] := by simpa [HasDigits, hf] using hdigits
      simpa using IsMantissa.whole hw hwf.whole
    | some fs =>
      have hw : l.whole ≠ [] ∨ fs ≠ [] := by simpa [HasDigits, hf] using hdigits
      exact .point hw hwf.whole (hwf.fraction fs hf)
  · cases he : l.exponent with
    | none => exact .none
    | some e =>
      have hne : e.digits ≠ [] := by simpa [isComplete, he] using hc
      have hs : e.sign.toList = [] ∨ e.sign.toList = ['+'] ∨ e.sign.toList = ['-'] := by
        cases hsign : e.sign with
        | none => exact .inl rfl
        | some c => rcases hwf.sign e c he hsign with rfl | rfl <;> simp
      exact .some (hwf.mark e he) hs hne (hwf.digits e he)

/-! ## Reading before another text -/

/-- A complete literal is read off every text that does not go on with it. -/
theorem read_chars_append {l : Literal} (h : l.IsWellFormed) (hc : l.isComplete = true)
    {rest : List Char} (hr : EndsNumber rest) : read (l.chars ++ rest) = l := by
  obtain ⟨whole, fraction, exponent⟩ := l
  -- What stands behind the digits of the mantissa is the exponent, and it starts with no digit.
  obtain ⟨tail, htail, hread, hhead, hdot⟩ : ∃ tail,
      (⟨whole, fraction, exponent⟩ : Literal).chars ++ rest =
        whole ++ (fraction.elim [] ('.' :: ·) ++ tail) ∧
      Exponent.read? tail = exponent ∧ (∀ c, tail.head? = some c → isDigit c = false) ∧
      ∀ c, tail.head? = some c → c ≠ '.' := by
    cases exponent with
    | none =>
      exact ⟨rest, by simp [chars], Exponent.read?_eq_none hr, fun c hc => (hr c hc).1,
        fun c hc => (hr c hc).2.1⟩
    | some e =>
      have hm := h.mark e rfl
      have hne : e.digits ≠ [] := by simpa [isComplete] using hc
      refine ⟨e.chars ++ rest, by simp [chars],
        Exponent.read?_chars_append hm (fun c => h.sign e c rfl) (h.digits e rfl) hne
          fun c hc => (hr c hc).1, ?_, ?_⟩
      · rintro c ⟨⟩
        rcases hm with hm | hm <;> rw [hm] <;> rfl
      · rintro c ⟨⟩
        rcases hm with hm | hm <;> rw [hm] <;> decide
  rw [htail]
  cases fraction with
  | none =>
    obtain ⟨ht, hd⟩ := takeWhile_append_of_head h.whole hhead
    rw [Option.elim_none, List.nil_append, read, ht, hd]
    split
    · exact absurd rfl (hdot '.' rfl)
    · rw [hread]
  | some fs =>
    have hpoint (c : Char) (hc : ('.' :: (fs ++ tail)).head? = some c) : isDigit c = false := by
      cases hc
      rfl
    obtain ⟨ht, hd⟩ := takeWhile_append_of_head h.whole hpoint
    obtain ⟨ht', hd'⟩ := takeWhile_append_of_head (h.fraction fs rfl) hhead
    rw [Option.elim_some, List.cons_append, read, ht, hd]
    simp only [ht', hd', hread]

end Literal

end SignalCalc
