import SignalCalc.Poly.Text
import SignalCalc.Proofs.Poly.Spelling

/-!
# Texts of terms as expressions

The text of a term spells a number times a power of the variable. A minus sign after the first term
is an operator, so it takes the whole term away. Before the first term it is a prefix, which binds
more tightly than a power: it goes with the number, or with the variable where the number is left
out. Only there, before an even power, is a coefficient changed (`readLeading`).

Main statements: `spells_leading`, for the first term, and `spells_tail`, for the others.
-/

namespace SignalCalc

open Double

/-- The text of the magnitude of a number is read as the magnitude. -/
def ReadsBack (c : Float) : Prop :=
  (Literal.read (NumberText.text c.abs).toList).value = c.abs

instance (c : Float) : Decidable (ReadsBack c) := inferInstanceAs (Decidable (_ = _))

namespace Poly

variable {rest : List Char} {c : Float} {n : Nat}

/-! ## Terms -/

/-- The text of a magnitude spells it, if it reads back. -/
theorem spells_magnitude (hf : isFinite c = true) (hr : ReadsBack c) (he : EndsNumber rest) :
    Spells rest .primary (NumberText.text c.abs).toList (const c.abs) := by
  obtain ⟨l, hl, ht⟩ := text_abs_eq_chars hf
  have hv : l.value = c.abs := by
    have hn : EndsNumber [] := nofun
    have h := l.read_append hl hn
    rw [List.append_nil] at h
    rw [ReadsBack, ht, h] at hr
    exact hr
  have hs := Spells.number hl he
  rw [hv] at hs
  rw [ht]
  exact hs

/-- What follows the base in the text of a power. -/
def raised (n : Nat) : List Char := if n = 1 then [] else '^' :: Nat.toDigits 10 n

/-- The text of a power is the variable and, above one, its exponent. -/
theorem toList_powerText (n : Nat) : (powerText n).toList = 's' :: raised n := by
  unfold powerText raised
  split
  · rfl
  · simp

/-- The text of a power, over `s` or over `-s`. -/
theorem spells_raised {base : List Char} {p : Poly Float}
    (hb : ∀ rest, EndsOperand rest → Spells rest .signed base p) (hp : IsTerm p 1 c)
    (hc : c = 1 ∨ c = -1) (hn : 0 < n) (hm : n ≤ maxDegree) (hr : EndsOperand rest) :
    ∃ q, Spells rest .power (base ++ raised n) q ∧
      IsTerm q n (if n % 2 = 0 then 1 else c) := by
  unfold raised
  split
  · next h1 =>
    subst h1
    refine ⟨p, ?_, hp⟩
    rw [List.append_nil]
    exact (hb rest hr).imp .ofSigned
  · have hd : Spells rest .power (Nat.toDigits 10 n)
        (const (OfScientific.ofScientific n false 0)) := by
      have h := Spells.number (isPlain_toDigits n) hr.endsNumber
      rw [value_toDigits] at h
      simp only [Literal.chars, Option.elim, List.append_nil] at h
      exact ((h.imp .ofPrimary).imp .ofSigned)
    have hh : EndsOperand ('^' :: (Nat.toDigits 10 n ++ rest)) := by
      rintro c ⟨⟩
      decide
    refine ⟨p.pow n, ?_, hp.pow hc n⟩
    exact Spells.binary (o := .power) (fun text position h h' => .power text position rfl h h')
      (hb _ hh) hd (power_const hp hn hm)

/-- The text of a power of `s`. -/
theorem spells_powerText (hn : 0 < n) (hm : n ≤ maxDegree) (hr : EndsOperand rest) :
    ∃ q, Spells rest .power (powerText n).toList q ∧ IsTerm q n 1 := by
  rw [toList_powerText]
  obtain ⟨q, hs, hq⟩ := spells_raised (fun rest hr => (Spells.laplace hr).imp .ofPrimary)
    isTerm_s (.inl rfl) hn hm hr
  rw [ite_self] at hq
  exact ⟨q, hs, hq⟩

/-- The text of a multiple of a power. -/
theorem spells_multiple {number : List Char} {p : Poly Float}
    (hb : ∀ rest, EndsOperand rest → Spells rest .signed number p) (hp : IsTerm p 0 c)
    (hf : isFinite c = true) (hn : 0 < n) (hm : n ≤ maxDegree) (hr : EndsOperand rest) :
    ∃ q, Spells rest .product (number ++ '*' :: (powerText n).toList) q ∧ IsTerm q n c := by
  obtain ⟨q, hs, hq⟩ := spells_powerText hn hm hr
  have hh : EndsOperand ('*' :: ((powerText n).toList ++ rest)) := by
    rintro c ⟨⟩
    decide
  have ht : IsTerm (p * q) n c := by
    have h := hp.mul hq hf (by decide) (by rw [Double.mul_one]; exact hp.1)
    rwa [Nat.zero_add, Double.mul_one] at h
  have hc : (p * q).checkDegree = .ok (p * q) := by
    rw [checkDegree, ht.natDegree, if_neg (by omega)]
  refine ⟨p * q, ?_, ht⟩
  exact Spells.binary (o := .multiply) (fun text position h h' => .product text position rfl h h')
    (((hb _ hh).imp .ofSigned).imp .ofPower) hs hc

/-- The text of a term without its sign. -/
theorem spells_termText (hf : isFinite c = true) (hz : ¬IsZero c) (hb : ReadsBack c)
    (hm : n ≤ maxDegree) (hr : EndsOperand rest) :
    ∃ q, Spells rest .product (termText n (Elementary.abs c)).toList q ∧ IsTerm q n c.abs := by
  have hz : ¬IsZero c.abs := fun h => hz (isZero_abs_iff.1 h)
  have hs (rest : List Char) (hr : EndsOperand rest) :
      Spells rest .signed (NumberText.text c.abs).toList (const c.abs) :=
    (spells_magnitude hf hb hr.endsNumber).imp .ofPrimary
  unfold termText
  split
  · next hn =>
    subst hn
    exact ⟨const c.abs, ((hs rest hr).imp .ofSigned).imp .ofPower, isTerm_const hz⟩
  · next hn =>
    have hn : 0 < n := Nat.pos_of_ne_zero hn
    split
    · next h1 =>
      have h1 : c.abs = 1 := eq_of_beq h1 hz
      obtain ⟨q, hs, hq⟩ := spells_powerText hn hm hr
      exact ⟨q, hs.imp .ofPower, h1 ▸ hq⟩
    · rw [String.toList_append, String.toList_append, List.append_assoc]
      exact spells_multiple hs (isTerm_const hz) (isFinite_abs hf) hn hm hr

/-- The coefficient with which a leading term is read: a minus sign that stands before an even power
is inside it. -/
def readLeading (n : Nat) (c : Float) : Float :=
  if n ≠ 0 ∧ n % 2 = 0 ∧ c = -1 then 1 else c

/-- A negative term is a minus sign and its magnitude, wherever it stands. -/
theorem toList_signedTerm_of_neg {first : Bool} (h : c < 0) :
    (signedTerm first n c).toList = '-' :: (termText n (Elementary.abs c)).toList := by
  rw [signedTerm, if_pos h, String.toList_append]
  rfl

/-- A first term that is not negative has no sign. -/
theorem toList_signedTerm_of_not_neg (h : ¬c < 0) :
    (signedTerm true n c).toList = (termText n (Elementary.abs c)).toList := by
  rw [signedTerm, if_neg h, if_pos rfl, String.toList_append]
  rfl

/-- The text of a leading negative term: the minus sign binds to the number, or else to the
variable. -/
theorem spells_leading_of_neg (hc : c < 0) (hf : isFinite c = true) (hz : ¬IsZero c)
    (hb : ReadsBack c) (hm : n ≤ maxDegree) (hr : EndsOperand rest) :
    ∃ q, Spells rest .product ('-' :: (termText n (Elementary.abs c)).toList) q ∧
      IsTerm q n (readLeading n c) := by
  have ha : -c.abs = c := by rw [Double.abs_of_neg hc, Double.neg_neg]
  have hs (rest : List Char) (hr : EndsOperand rest) :
      Spells rest .signed ('-' :: (NumberText.text c.abs).toList) (-const c.abs) :=
    ((spells_magnitude hf hb hr.endsNumber).imp .ofPrimary).negate
  have ht : IsTerm (-const c.abs) 0 c := by
    have h := (isTerm_const fun h => hz (isZero_abs_iff.1 h)).neg
    rwa [ha] at h
  unfold termText
  split
  · next hn =>
    subst hn
    exact ⟨_, ((hs rest hr).imp .ofSigned).imp .ofPower, ht⟩
  · next hn =>
    have hn' : 0 < n := Nat.pos_of_ne_zero hn
    split
    · next h1 =>
      have h1 : c.abs = 1 := eq_of_beq h1 fun h => hz (isZero_abs_iff.1 h)
      -- No number is written, so the sign goes with the variable and into the power.
      have hc : c = -1 := by rw [← ha, h1]
      have hs (rest : List Char) (hr : EndsOperand rest) : Spells rest .signed ['-', 's'] (-s) :=
        ((Spells.laplace hr).imp .ofPrimary).negate
      obtain ⟨q, hq, hi⟩ := spells_raised hs isTerm_s.neg (.inr rfl) hn' hm hr
      refine ⟨q, ?_, ?_⟩
      · rw [toList_powerText]
        exact hq.imp .ofPower
      · have he : readLeading n c = if n % 2 = 0 then 1 else -1 := by
          subst hc
          simp [readLeading, hn]
        rwa [he]
    · next h1 =>
      have he : readLeading n c = c := by
        refine if_neg fun h => h1 ?_
        rw [h.2.2]
        decide
      rw [he, String.toList_append, String.toList_append, List.append_assoc]
      exact spells_multiple hs ht hf hn' hm hr

/-- The text of a leading term. -/
theorem spells_leading (hf : isFinite c = true) (hz : ¬IsZero c) (hb : ReadsBack c)
    (hm : n ≤ maxDegree) (hr : EndsOperand rest) :
    ∃ q, Spells rest .product (signedTerm true n c).toList q ∧ IsTerm q n (readLeading n c) := by
  by_cases hc : c < 0
  · rw [toList_signedTerm_of_neg hc]
    exact spells_leading_of_neg hc hf hz hb hm hr
  · have hl : readLeading n c = c.abs := by
      rw [abs_of_not_neg hc hz]
      refine if_neg fun h => hc ?_
      rw [h.2.2]
      decide
    rw [toList_signedTerm_of_not_neg hc, hl]
    exact spells_termText hf hz hb hm hr

/-! ## Sums of terms -/

/-- The coefficients of a polynomial are those of a list of terms, and zeros. -/
def Sums (q : Poly Float) (ts : List (Float × Nat)) : Prop :=
  ∀ k, (∀ c, (c, k) ∈ ts → SameNumber (q.coeff k) c) ∧
    ((∀ c, (c, k) ∉ ts) → IsZero (q.coeff k))

/-- A term is the sum of itself. -/
theorem IsTerm.sums {q : Poly Float} (h : IsTerm q n c) : Sums q [(c, n)] := by
  intro k
  by_cases hk : k = n
  · subst hk
    refine ⟨?_, fun hn => absurd (List.mem_singleton_self _) (hn c)⟩
    rintro c' hc'
    cases List.mem_singleton.1 hc'
    exact .inl h.coeff_self
  · refine ⟨?_, fun _ => h.isZero_coeff hk⟩
    rintro c' hc'
    cases List.mem_singleton.1 hc'
    exact absurd rfl hk

/-- A term of a new power goes with the others. -/
theorem Sums.add {q t : Poly Float} {ts : List (Float × Nat)} (h : Sums q ts) (ht : IsTerm t n c)
    (hn : ∀ c', (c', n) ∉ ts) : Sums (q + t) (ts ++ [(c, n)]) := by
  intro k
  have ha := coeff_add q t k
  by_cases hk : k = n
  · subst hk
    have hc := ha.trans (SameNumber.zero_add ((h k).2 hn))
    rw [ht.coeff_self] at hc
    refine ⟨fun c' hc' => ?_, fun hn' => absurd (by simp) (hn' c)⟩
    rcases List.mem_append.1 hc' with hc' | hc'
    · exact absurd hc' (hn c')
    · cases List.mem_singleton.1 hc'
      exact hc
  · have hc := ha.trans (SameNumber.add_zero (ht.isZero_coeff hk))
    refine ⟨fun c' hc' => hc.trans ((h k).1 c' ?_), fun hn' => ?_⟩
    · rcases List.mem_append.1 hc' with hc' | hc'
      · exact hc'
      · cases List.mem_singleton.1 hc'
        exact absurd rfl hk
    · rw [hc.isZero_iff]
      exact (h k).2 fun c' hc' => hn' c' (List.mem_append_left _ hc')

/-- The text of the terms after the first. -/
def tailText (ts : List (Float × Nat)) : List Char :=
  ts.flatMap fun (c, n) => (signedTerm false n c).toList

/-- The terms are written one behind the other. -/
theorem toList_foldl_signedTerm (ts : List (Float × Nat)) (text : String) :
    (ts.foldl (fun s (c, n) => s ++ signedTerm false n c) text).toList =
      text.toList ++ tailText ts := by
  induction ts generalizing text with
  | nil => simp [tailText]
  | cons t ts ih =>
    rw [List.foldl_cons, ih, String.toList_append, List.append_assoc]
    rfl

/-- The text of a further term is its sign, as an operator, and its text without the sign. -/
theorem toList_signedTerm_false (hz : ¬IsZero c) :
    ∃ o : Operator, (signedTerm false n c).toList =
        o.symbol :: (termText n (Elementary.abs c)).toList ∧ o.level = .sum ∧
      ∀ q t : Poly Float, IsTerm t n c.abs →
        ∃ t', Poly.binary o q t = .ok (q + t') ∧ IsTerm t' n c := by
  by_cases hc : c < 0
  · refine ⟨.subtract, toList_signedTerm_of_neg hc, rfl, fun q t ht => ⟨-t, rfl, ?_⟩⟩
    have h := ht.neg
    rwa [Double.abs_of_neg hc, Double.neg_neg] at h
  · refine ⟨.add, ?_, rfl, fun q t ht => ⟨t, rfl, ?_⟩⟩
    · rw [signedTerm, if_neg hc, String.toList_append]
      rfl
    · rwa [abs_of_not_neg hc hz] at ht

/-- What the text of a polynomial asks of its terms. -/
structure IsReadable (t : Float × Nat) : Prop where
  finite : isFinite t.1 = true
  ne_zero : ¬IsZero t.1
  readsBack : ReadsBack t.1
  degree : t.2 ≤ maxDegree

/-- What follows a term is an operator, or nothing. -/
theorem endsOperand_tailText (ts : List (Float × Nat)) (h : ∀ t ∈ ts, IsReadable t) :
    EndsOperand (tailText ts) := by
  cases ts with
  | nil => nofun
  | cons t ts =>
    obtain ⟨c, n⟩ := t
    obtain ⟨o, ho, hl, -⟩ := toList_signedTerm_false (n := n) (h (c, n) (by simp)).ne_zero
    rintro x hx
    simp only [tailText, List.flatMap_cons, ho, List.cons_append, List.head?_cons,
      Option.some.injEq] at hx
    subst hx
    cases o <;> first | decide | cases hl

/-- Term after term, the value of the text is the sum of the terms. The induction is on the terms
that are left; what is spelled so far is the left operand of the next sign. -/
theorem spells_tail (ts done : List (Float × Nat)) (hr : ∀ t ∈ ts, IsReadable t)
    (hn : ((done ++ ts).map (·.2)).Nodup) {chars : List Char} {q : Poly Float}
    (hs : Spells (tailText ts) .sum chars q) (hq : Sums q done) :
    ∃ q', Spells [] .sum (chars ++ tailText ts) q' ∧ Sums q' (done ++ ts) := by
  induction ts generalizing done chars q with
  | nil =>
    refine ⟨q, ?_, by rwa [List.append_nil]⟩
    simp only [tailText, List.flatMap_nil, List.append_nil] at hs ⊢
    exact hs
  | cons t ts ih =>
    obtain ⟨c, n⟩ := t
    obtain ⟨hc, hr⟩ := List.forall_mem_cons.1 hr
    obtain ⟨o, ho, hl, hb⟩ := toList_signedTerm_false (n := n) hc.ne_zero
    obtain ⟨t, hst, ht⟩ := spells_termText hc.finite hc.ne_zero hc.readsBack hc.degree
      (endsOperand_tailText ts hr)
    obtain ⟨t', hbt, ht'⟩ := hb q t ht
    have he : tailText ((c, n) :: ts) =
        o.symbol :: ((termText n (Elementary.abs c)).toList ++ tailText ts) := by
      simp only [tailText, List.flatMap_cons, ho, List.cons_append]
    rw [he] at hs
    have hs' := Spells.binary (fun text position h h' => .sum text position hl h h') hs hst hbt
    have hnew : ∀ c', (c', n) ∉ done := by
      rw [List.map_append, List.nodup_append] at hn
      exact fun c' hd => hn.2.2 n (List.mem_map_of_mem hd) n (by simp) rfl
    have hn' : (((done ++ [(c, n)]) ++ ts).map (·.2)).Nodup := by
      rwa [List.append_assoc]
    obtain ⟨q', hq', hsum⟩ := ih (done ++ [(c, n)]) hr hn' hs' (hq.add ht' hnew)
    refine ⟨q', ?_, ?_⟩
    · rw [he]
      simpa using hq'
    · simpa using hsum

end Poly

end SignalCalc
