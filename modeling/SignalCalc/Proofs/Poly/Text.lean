import SignalCalc.Filter.TransferFunction
import SignalCalc.Proofs.Poly.TermText

/-!
# What the canonical text of a polynomial denotes

The text of a polynomial, read as an expression, is solved for the polynomial itself. The exception
is an even degree with a leading coefficient of minus one (`Poly.LosesSign`): the text starts with
`-s^`, which is a power of `-s`, and the leading coefficient is read as one (`Poly.denoted`). The
coefficients have to be finite, and their decimal texts have to read back (`ReadsBack`).

Main statement: `text_denotes_iff`.
-/

namespace SignalCalc

open Double

namespace Poly

variable {c : Float}

/-! ## The whole text -/

/-- The terms of a list of coefficients by descending powers. -/
def termsOf (cs : List Float) : List (Float × Nat) :=
  (cs.zipIdx.filter fun (c, _) => !(c == 0)).reverse

/-- The terms are the coefficients that are not zero, with their powers. -/
theorem mem_termsOf {cs : List Float} {k : Nat} :
    (c, k) ∈ termsOf cs ↔ cs[k]? = some c ∧ ¬IsZero c := by
  rw [termsOf, List.mem_reverse, List.mem_filter, List.mem_zipIdx_iff_getElem?, ← beq_zero_iff]
  simp

/-- No power comes twice. -/
theorem nodup_termsOf (cs : List Float) : ((termsOf cs).map (·.2)).Nodup := by
  have h : (cs.zipIdx.map (·.2)).Nodup := by
    rw [List.zipIdx_map_snd]
    exact List.nodup_range'
  have hf := h.sublist ((List.filter_sublist (p := fun x : Float × Nat => !(x.1 == 0))).map (·.2))
  rw [termsOf, List.map_reverse, List.Nodup, List.pairwise_reverse]
  exact hf.imp Ne.symm

/-- The terms of a polynomial other than zero start with the one of the highest power. -/
theorem termsOf_append {cs : List Float} (hc : ¬IsZero c) :
    termsOf (cs ++ [c]) = (c, cs.length) :: termsOf cs := by
  have hb : (c == 0) = false := by
    cases hb : (c == 0) with
    | false => rfl
    | true => exact absurd (beq_zero_iff.1 hb) hc
  simp [termsOf, List.zipIdx_append, hb]

/-- The text of a polynomial is its leading term, followed by the others. -/
theorem toList_text_of_append {p : Poly Float} {cs : List Float} (hp : p.coeffs = cs ++ [c])
    (hc : ¬IsZero c) :
    p.text.toList = (signedTerm true cs.length c).toList ++ tailText (termsOf cs) := by
  have ht := @termsOf_append _ cs hc
  rw [← hp] at ht
  unfold text
  simp only [termsOf] at ht
  simp only [ht]
  exact toList_foldl_signedTerm _ _

/-- Lists with the same numbers have the same terms. -/
theorem termsOf_congr {as bs : List Float} (hl : as.length = bs.length)
    (h : ∀ k, SameNumber (as.getD k 0) (bs.getD k 0)) : termsOf as = termsOf bs := by
  have hz (start : Nat) : (as.zipIdx start).filter (fun (c, _) => !(c == 0)) =
      (bs.zipIdx start).filter fun (c, _) => !(c == 0) := by
    induction as generalizing bs start with
    | nil =>
      cases List.eq_nil_of_length_eq_zero hl.symm
      rfl
    | cons a as ih =>
      match bs, hl with
      | b :: bs, hl =>
        have hab : SameNumber a b := h 0
        have hi := ih (by simpa using hl) (fun k => h (k + 1)) (start + 1)
        rcases hab with rfl | ⟨ha, hb⟩
        · simp [List.filter_cons, hi]
        · simp [hi, beq_zero_iff.2 ha, beq_zero_iff.2 hb]
  rw [termsOf, hz, termsOf]

/-- Polynomials that agree have the same text. -/
theorem Agrees.text_eq {p q : Poly Float} (h : Agrees p q) : p.text = q.text := by
  have ht := termsOf_congr h.length_eq h
  unfold text
  unfold termsOf at ht
  simp only [ht]

/-- A polynomial with the terms of another one agrees with it. -/
theorem Sums.agrees {q r : Poly Float} (h : Sums q (termsOf r.coeffs)) : q.Agrees r := by
  intro k
  by_cases hz : IsZero (r.coeff k)
  · refine .inr ⟨(h k).2 fun c hc => ?_, hz⟩
    obtain ⟨hk, hc⟩ := mem_termsOf.1 hc
    refine hc ?_
    rwa [coeff, List.getD_eq_getElem?_getD, hk] at hz
  · refine (h k).1 _ (mem_termsOf.2 ⟨?_, hz⟩)
    rw [coeff, List.getD_eq_getElem?_getD] at hz ⊢
    cases hk : r.coeffs[k]? with
    | none =>
      rw [hk] at hz
      exact absurd isZero_zero hz
    | some c => rfl

/-- A polynomial of even degree with a leading coefficient of minus one: in its text the sign is
inside the power. -/
def LosesSign (p : Poly Float) : Prop :=
  p.natDegree ≠ 0 ∧ p.natDegree % 2 = 0 ∧ p.coeff p.natDegree = -1

instance (p : Poly Float) : Decidable p.LosesSign := inferInstanceAs (Decidable (_ ∧ _ ∧ _))

/-- The polynomial that the canonical text denotes. -/
def denoted (p : Poly Float) : Poly Float :=
  if p.LosesSign then ofList (p.coeffs.dropLast ++ [1]) else p

/-- What the text of a polynomial asks of it to be read: the coefficients are finite and read back,
and the powers are not too high. -/
structure Readable (p : Poly Float) : Prop where
  finite : ∀ c ∈ p.coeffs, isFinite c = true
  readsBack : ∀ c ∈ p.coeffs, ReadsBack c
  degree : p.natDegree ≤ maxDegree

/-- A polynomial is zero or has a leading coefficient, which is not. -/
theorem eq_nil_or_append (p : Poly Float) :
    p.coeffs = [] ∨ ∃ cs c, p.coeffs = cs ++ [c] ∧ ¬IsZero c ∧ p.natDegree = cs.length ∧
      p.coeff cs.length = c := by
  rcases List.eq_nil_or_concat p.coeffs with hp | ⟨cs, c, hp⟩
  · exact .inl hp
  · rw [List.concat_eq_append] at hp
    refine .inr ⟨cs, c, hp, ?_, ?_, ?_⟩
    · have hl : p.coeffs.length = cs.length + 1 := by simp [hp]
      have hz := not_isZero_leading hl
      simpa [coeff, hp] using hz
    · unfold natDegree degree?
      rw [hp]
      cases cs <;> simp
    · simp [coeff, hp]

/-- The polynomial that the text denotes differs in its leading coefficient only. -/
theorem coeffs_denoted {p : Poly Float} {cs : List Float} (hp : p.coeffs = cs ++ [c])
    (hn : p.natDegree = cs.length) (hc : p.coeff cs.length = c) :
    p.denoted.coeffs = cs ++ [readLeading cs.length c] := by
  have hl : p.LosesSign ↔ cs.length ≠ 0 ∧ cs.length % 2 = 0 ∧ c = -1 := by
    rw [LosesSign, hn, hc]
  by_cases h : p.LosesSign
  · rw [denoted, if_pos h, readLeading, if_pos (hl.1 h), hp, List.dropLast_concat]
    exact dropTrailingZeros_append not_isZero_one
  · rw [denoted, if_neg h, readLeading, if_neg (mt hl.2 h), hp]

/-- The text of zero is solved for zero. -/
theorem solvePoly_text_of_nil {p : Poly Float} (hp : p.coeffs = []) :
    ∃ q : Poly Float, (∀ names, solvePoly names p.text = .ok q) ∧ q.Agrees p := by
  have hd : p.text.toList = (⟨Nat.toDigits 10 0, none, none⟩ : Literal).chars := by
    rw [text, hp]
    rfl
  have hs := Spells.number (isPlain_toDigits 0) (show EndsNumber [] from nofun)
  rw [value_toDigits, ← hd] at hs
  have hs := (((hs.imp .ofPrimary).imp .ofSigned).imp .ofPower).imp .ofProduct
  refine ⟨_, hs.solvePoly_eq, fun k => (getD_dropTrailingZeros _ k).trans (.inr ⟨?_, ?_⟩)⟩
  · cases k <;> exact isZero_zero
  · rw [coeff_eq_zero (by simp [hp])]
    exact isZero_zero

/-- The text of a polynomial is solved for the polynomial that it denotes. -/
theorem Readable.solvePoly_text {p : Poly Float} (h : p.Readable) :
    ∃ q : Poly Float, (∀ names, solvePoly names p.text = .ok q) ∧ q.Agrees p.denoted := by
  rcases p.eq_nil_or_append with hp | ⟨cs, c, hp, hz, hn, hc⟩
  · have hl : ¬p.LosesSign := fun hl => hl.1 (by rw [natDegree, degree?, hp]; rfl)
    rw [denoted, if_neg hl]
    exact solvePoly_text_of_nil hp
  · have hr : ∀ t ∈ termsOf (cs ++ [c]), IsReadable t := by
      rintro ⟨c', k⟩ hk
      obtain ⟨hk, hz⟩ := mem_termsOf.1 hk
      rw [← hp] at hk
      have hm := List.mem_of_getElem? hk
      have hl : k < p.coeffs.length := (List.getElem?_eq_some_iff.1 hk).1
      refine ⟨h.finite _ hm, hz, h.readsBack _ hm, Nat.le_trans ?_ h.degree⟩
      rw [hp, List.length_append, List.length_singleton] at hl
      omega
    have hnodup := nodup_termsOf (cs ++ [c])
    rw [termsOf_append hz] at hr hnodup
    obtain ⟨hr₀, hr⟩ := List.forall_mem_cons.1 hr
    obtain ⟨q, hs, hq⟩ := spells_leading hr₀.finite hz hr₀.readsBack hr₀.degree
      (endsOperand_tailText _ hr)
    obtain ⟨q', hs', hq'⟩ := spells_tail (termsOf cs) [(readLeading cs.length c, cs.length)] hr
      hnodup (hs.imp .ofProduct) hq.sums
    rw [← toList_text_of_append hp hz] at hs'
    refine ⟨q', fun names => hs'.solvePoly_eq names, Sums.agrees ?_⟩
    rw [coeffs_denoted hp hn hc, termsOf_append hq.1]
    exact hq'

/-- The sign that a text loses is that of the leading coefficient. -/
theorem LosesSign.coeffs {p : Poly Float} (h : p.LosesSign) :
    ∃ cs, cs.length ≠ 0 ∧ p.coeffs = cs ++ [-1] ∧ p.denoted.coeffs = cs ++ [1] := by
  rcases p.eq_nil_or_append with hp | ⟨cs, c, hp, -, hn, hc⟩
  · exact absurd (by rw [natDegree, degree?, hp]; rfl) h.1
  · have hd := coeffs_denoted hp hn hc
    rw [LosesSign, hn, hc] at h
    rw [readLeading, if_pos h] at hd
    rw [h.2.2] at hp
    exact ⟨cs, h.1, hp, hd⟩

/-- The text denotes the polynomial, unless it loses a sign. -/
theorem agrees_denoted_iff (p : Poly Float) : p.denoted.Agrees p ↔ ¬p.LosesSign := by
  refine ⟨fun h hl => ?_, fun hl => ?_⟩
  · obtain ⟨cs, -, hp, hd⟩ := hl.coeffs
    have hk := h cs.length
    simp only [coeff, hp, hd, List.getD_eq_getElem?_getD, List.getElem?_concat_length,
      Option.getD_some] at hk
    rcases hk with hk | ⟨hk, -⟩
    · exact absurd hk (by decide)
    · exact not_isZero_one hk
  · rw [denoted, if_neg hl]
    exact fun k => .inl rfl

/-- The text of what the text denotes is the same, unless it loses a sign. -/
theorem text_denoted_iff (p : Poly Float) : p.denoted.text = p.text ↔ ¬p.LosesSign := by
  refine ⟨fun h hl => ?_, fun hl => ((agrees_denoted_iff p).2 hl).text_eq⟩
  obtain ⟨cs, hn, hp, hd⟩ := hl.coeffs
  have hz : ¬IsZero (-1) := fun hz => not_isZero_one (by rw [← Double.neg_neg 1]; exact hz.neg)
  have ht := congrArg String.toList h
  have h1 : termText cs.length (Elementary.abs (1 : Float)) = powerText cs.length := by
    rw [termText, if_neg hn, if_pos (by decide)]
  -- One text starts with the variable and the other one with the sign.
  rw [toList_text_of_append hd not_isZero_one, toList_text_of_append hp hz,
    toList_signedTerm_of_not_neg (by decide), toList_signedTerm_of_neg (by decide), h1,
    toList_powerText] at ht
  cases ht

/-- The polynomial that the text denotes has as many coefficients. -/
theorem length_coeffs_denoted (p : Poly Float) : p.denoted.coeffs.length = p.coeffs.length := by
  by_cases hl : p.LosesSign
  · obtain ⟨cs, -, hp, hd⟩ := hl.coeffs
    rw [hp, hd, List.length_append, List.length_append]
    rfl
  · rw [denoted, if_neg hl]

/-- What is read off the text agrees with the polynomial, unless its sign is lost. -/
theorem Agrees.agrees_iff {p q : Poly Float} (h : q.Agrees p.denoted) :
    q.Agrees p ↔ ¬p.LosesSign := by
  rw [← agrees_denoted_iff]
  exact ⟨fun hp k => (h k).symm.trans (hp k), fun hp k => (h k).trans (hp k)⟩

/-- The degree is one of the number of coefficients. -/
theorem degree?_congr {p q : Poly Float} (h : p.coeffs.length = q.coeffs.length) :
    p.degree? = q.degree? := by
  unfold degree?
  cases hp : p.coeffs <;> cases hq : q.coeffs <;> simp_all

end Poly

/-- Whether a quotient is proper is seen from the numbers of coefficients. -/
theorem TransferFunction.make_congr {n d n' d' : Poly Float}
    (hn : n'.coeffs.length = n.coeffs.length) (hd : d'.coeffs.length = d.coeffs.length)
    (h : make n d = .ok ⟨n, d⟩) : make n' d' = .ok ⟨n', d'⟩ := by
  unfold make at h ⊢
  rw [Poly.natDegree, Poly.degree?_congr hn, ← Poly.natDegree, Poly.degree?_congr hd]
  split at h
  · cases h
  · split at h
    · cases h
    · next ho => rw [if_neg ho]

/-- **A text denotes its polynomial unless it loses a sign.** Let the coefficients of a polynomial
be finite and read back, and its degree not too high. Its text is solved for a polynomial with the
same coefficients, and simplified to itself, unless the degree is even and not zero and the leading
coefficient is minus one: then the leading coefficient is read as one, and the others as they are.
So it is with both texts of a transfer function. -/
theorem text_denotes_iff {p : Poly Float} (h : p.Readable) :
    (∃ q : Poly Float, (∀ names, solvePoly names p.text = .ok q) ∧ q.Agrees p.denoted ∧
      (q.Agrees p ↔ ¬p.LosesSign)) ∧
    (∀ names, simplify Float names p.text = .ok p.text ↔ ¬p.LosesSign) ∧
    ∀ d : Poly Float, d.Readable → TransferFunction.make p d = .ok ⟨p, d⟩ →
      ∃ t : TransferFunction Float, TransferFunction.parse p.text d.text = .ok t ∧
        (t.numerator.Agrees p ∧ t.denominator.Agrees d ↔ ¬p.LosesSign ∧ ¬d.LosesSign) := by
  obtain ⟨q, hs, hq⟩ := h.solvePoly_text
  refine ⟨⟨q, hs, hq, hq.agrees_iff⟩, fun names => ?_, fun d hd hm => ?_⟩
  · rw [simplify, hs, ok_bind, ← Poly.text_denoted_iff, ← hq.text_eq]
    exact ⟨fun he => Except.ok.inj he, fun he => congrArg Except.ok he⟩
  · obtain ⟨r, hs', hr⟩ := hd.solvePoly_text
    have hm' := TransferFunction.make_congr (hq.length_eq.trans p.length_coeffs_denoted)
      (hr.length_eq.trans d.length_coeffs_denoted) hm
    refine ⟨⟨q, r⟩, ?_, by rw [hq.agrees_iff, hr.agrees_iff]⟩
    rw [TransferFunction.parse, hs, ok_bind, hs', ok_bind]
    exact hm'

/-- In an odd power the sign of a leading minus one is kept: the filter `-s^3+0.5` over
`4.25*s^3-3*s+2` is read back. -/
theorem text_denotes_iff_odd :
    let p : Poly Float := .ofList [0.5, 0, 0, -1]
    let d : Poly Float := .ofList [2, -3, 0, 4.25]
    p.Readable ∧ d.Readable ∧ p.text = "-s^3+0.5" ∧ d.text = "4.25*s^3-3*s+2" ∧
      (∃ q : Poly Float, (∀ names, solvePoly names p.text = .ok q) ∧ q.Agrees p) ∧
      simplify Float [] p.text = .ok p.text ∧
      ∃ t : TransferFunction Float, TransferFunction.parse p.text d.text = .ok t ∧
        t.numerator.Agrees p ∧ t.denominator.Agrees d := by
  intro p d
  have hp : p.Readable := ⟨by decide +kernel, by decide +kernel, by decide +kernel⟩
  have hd : d.Readable := ⟨by decide +kernel, by decide +kernel, by decide +kernel⟩
  have hlp : ¬p.LosesSign := by decide +kernel
  have hld : ¬d.LosesSign := by decide +kernel
  obtain ⟨⟨q, hs, -, hq⟩, hi, ht⟩ := text_denotes_iff hp
  obtain ⟨t, hm, ht⟩ := ht d hd rfl
  exact ⟨hp, hd, by decide +kernel, by decide +kernel, ⟨q, hs, hq.2 hlp⟩, (hi []).2 hlp, t, hm,
    ht.2 ⟨hlp, hld⟩⟩

/-- The text of `-s^2` is solved for `s^2`: the minus sign goes into the square. -/
theorem text_denotes_square :
    let p : Poly Float := .ofList [0, 0, -1]
    p.Readable ∧ p.text = "-s^2" ∧ ¬∃ q : Poly Float, solvePoly [] p.text = .ok q ∧ q.Agrees p := by
  intro p
  have hp : p.Readable := ⟨by decide +kernel, by decide +kernel, by decide +kernel⟩
  refine ⟨hp, by decide +kernel, ?_⟩
  rintro ⟨q, hq, ha⟩
  obtain ⟨q', hs, hd⟩ := hp.solvePoly_text
  rw [hs] at hq
  cases hq
  exact hd.agrees_iff.1 ha (by decide +kernel)

end SignalCalc
