import Mathlib.Algebra.Polynomial.RingDivision
import SignalCalc.Proofs.Filter.Design
import SignalCalc.Proofs.Filter.Recurrence

/-!
# Filters in series and in parallel

In exact arithmetic the samples that a new filter takes and those that it gives are polynomials in
the delay, known up to the number of samples. The difference equation says that the denominator
times the output is the numerator times the input as far as both are known (`Realizes`), and since
the denominator does not vanish at zero this determines the output. So two filters whose polynomials
are products or sums of those of others give what the others give in series or in parallel, however
different the sizes of their histories are, and the bilinear transform makes products out of
products.

Main statements: `Realizes.cascade`, `Realizes.parallel`, `filters_compose`.
-/

namespace SignalCalc

open Polynomial DigitalFilter

/-! ## The difference equation of polynomials -/

section Equation

variable {α : Type}

/-- A signal that begins with zeros, delayed by some samples. -/
theorem extended_zero_eq_coeff [CommRing α] (xs : List α) (time delay : Nat) :
    extended 0 xs (time - delay) = (X ^ delay * polynomialOf xs).coeff time := by
  rw [coeff_X_pow_mul', extended, coeff_polynomialOf]
  split
  · rw [if_neg (by omega)]
  · rw [if_pos (by omega)]
    congr 1
    omega

/-- The sum over the past of a signal is a coefficient of a product. -/
theorem sum_mul_extended [CommRing α] (cs xs : List α) (first time : Nat) :
    ((cs.zipIdx first).map fun (c, k) => c * extended 0 xs (time - k)).sum =
      (X ^ first * polynomialOf cs * polynomialOf xs).coeff time := by
  induction cs generalizing first with
  | nil => simp
  | cons c cs ih =>
    have hsplit : X ^ first * polynomialOf (c :: cs) * polynomialOf xs =
        C c * (X ^ first * polynomialOf xs) +
          X ^ (first + 1) * polynomialOf cs * polynomialOf xs := by
      rw [polynomialOf_cons]
      ring
    rw [List.zipIdx_cons, List.map_cons, List.sum_cons, ih, hsplit, coeff_add, coeff_C_mul,
      ← extended_zero_eq_coeff]

/-- Where the difference equation holds with zeros in the past, the denominator times the output is
the numerator times the input. -/
theorem coeff_mul_eq_of_differenceAt [Field α] [LinearOrder α] {b feedback us ys : List α}
    {time : Nat} {y : α} (hy : ys[time]? = some y)
    (h : y = differenceAt b (1 :: feedback) (extended 0 us) (extended 0 ys) time) :
    (polynomialOf (1 :: feedback) * polynomialOf ys).coeff time =
      (polynomialOf b * polynomialOf us).coeff time := by
  have hb := sum_mul_extended b us 0 time
  have ha := sum_mul_extended feedback ys 1 time
  rw [pow_zero, one_mul] at hb
  rw [pow_one] at ha
  have hc : (polynomialOf ys).coeff time = y := by
    rw [coeff_polynomialOf, List.getD_eq_getElem?_getD, hy, Option.getD_some]
  rw [differenceAt, total_eq_sum, total_eq_sum, hb, List.drop_one, List.tail_cons, ha] at h
  rw [polynomialOf_cons, C_1, add_mul, one_mul, coeff_add, hc, h, sub_add_cancel]

end Equation

/-! ## Runs of samples -/

section Runs

variable {α : Type} [Zero α] [Neg α] [Add α] [Sub α] [Mul α] [Div α] [BEq α]

omit [Div α] [BEq α] in
/-- A filter gives one sample for each that it is fed with. -/
theorem DigitalFilter.length_applyAll (f : DigitalFilter α) (us : List α) :
    (f.applyAll us).1.length = us.length := by
  induction us generalizing f with
  | nil => rfl
  | cons u us ih => simp [applyAll, ih]

/-- A list of samples adds to both signals of a run. -/
theorem Run.foldl_apply (r : Run α) (us : List α) :
    (us.map Call.apply).foldl call r =
      { r with
        filter := (r.filter.applyAll us).2
        inputs := r.inputs ++ us
        outputs := r.outputs ++ (r.filter.applyAll us).1 } := by
  induction us generalizing r with
  | nil => simp [DigitalFilter.applyAll]
  | cons u us ih =>
    rw [List.map_cons, List.foldl_cons, ih]
    simp [call, DigitalFilter.applyAll]

end Runs

/-! ## Filters as quotients of polynomials in the delay -/

section Realizes

variable {α : Type} [Field α]

/-- Fed with samples, the filter gives those whose product with `a` is the product of its input with
`b`, as far as the input is known. -/
structure Realizes (f : DigitalFilter α) (b a : α[X]) : Prop where
  coeff_zero_ne : a.coeff 0 ≠ 0
  equation (us : List α) :
    X ^ us.length ∣ a * polynomialOf (f.applyAll us).1 - b * polynomialOf us

namespace Realizes

variable {f f₁ f₂ : DigitalFilter α} {b a b₁ a₁ b₂ a₂ : α[X]}

/-- A constant factor of both polynomials does not count. -/
theorem of_mul_C {c : α} (hc : c ≠ 0) (h : Realizes f (b * C c) (a * C c)) : Realizes f b a where
  coeff_zero_ne := by
    have h0 := h.coeff_zero_ne
    rw [coeff_mul_C] at h0
    exact left_ne_zero_of_mul h0
  equation us := by
    have h := h.equation us
    rw [mul_right_comm, mul_right_comm b, ← sub_mul] at h
    exact (isUnit_C.2 hc.isUnit).dvd_mul_right.1 h

/-- The output is determined: the denominator does not vanish at zero, so it can be divided out of
what is known. -/
theorem eq_applyAll (h : Realizes f b a) {us ys : List α} (hl : ys.length = us.length)
    (hy : X ^ us.length ∣ a * polynomialOf ys - b * polynomialOf us) : (f.applyAll us).1 = ys := by
  have hlen := f.length_applyAll us
  refine eq_of_X_pow_dvd_sub (hlen.trans hl.symm) ?_
  have hsub := dvd_sub (h.equation us) hy
  rw [sub_sub_sub_cancel_right, ← mul_sub] at hsub
  rw [hlen]
  exact prime_X.pow_dvd_of_dvd_mul_left _ (fun hx => h.coeff_zero_ne (X_dvd_iff.1 hx)) hsub

/-- In series: the second filter takes what the first one gives. -/
theorem cascade (h₁ : Realizes f₁ b₁ a₁) (h₂ : Realizes f₂ b₂ a₂)
    (h : Realizes f (b₁ * b₂) (a₁ * a₂)) (us : List α) :
    (f.applyAll us).1 = (f₂.applyAll (f₁.applyAll us).1).1 := by
  have hl := f₁.length_applyAll us
  refine h.eq_applyAll ((f₂.length_applyAll _).trans hl) ?_
  have e₁ := h₁.equation us
  have e₂ := h₂.equation (f₁.applyAll us).1
  rw [hl] at e₂
  generalize polynomialOf (f₂.applyAll (f₁.applyAll us).1).1 = y₂ at e₂ ⊢
  generalize polynomialOf (f₁.applyAll us).1 = y₁ at e₁ e₂
  have hsplit : a₁ * a₂ * y₂ - b₁ * b₂ * polynomialOf us =
      a₁ * (a₂ * y₂ - b₂ * y₁) + b₂ * (a₁ * y₁ - b₁ * polynomialOf us) := by ring
  rw [hsplit]
  exact dvd_add (e₂.mul_left a₁) (e₁.mul_left b₂)

/-- In parallel: both filters take the same input, and what they give is added. -/
theorem parallel (h₁ : Realizes f₁ b₁ a₁) (h₂ : Realizes f₂ b₂ a₂)
    (h : Realizes f (b₁ * a₂ + b₂ * a₁) (a₁ * a₂)) (us : List α) :
    (f.applyAll us).1 = List.zipWith (· + ·) (f₁.applyAll us).1 (f₂.applyAll us).1 := by
  have hl₁ := f₁.length_applyAll us
  have hl₂ := f₂.length_applyAll us
  refine h.eq_applyAll (by rw [List.length_zipWith, hl₁, hl₂, min_self]) ?_
  rw [polynomialOf_zipWith_add (hl₁.trans hl₂.symm)]
  have e₁ := h₁.equation us
  have e₂ := h₂.equation us
  generalize polynomialOf (f₁.applyAll us).1 = y₁ at e₁ ⊢
  generalize polynomialOf (f₂.applyAll us).1 = y₂ at e₂ ⊢
  have hsplit : a₁ * a₂ * (y₁ + y₂) - (b₁ * a₂ + b₂ * a₁) * polynomialOf us =
      a₂ * (a₁ * y₁ - b₁ * polynomialOf us) + a₁ * (a₂ * y₂ - b₂ * polynomialOf us) := by ring
  rw [hsplit]
  exact dvd_add (e₁.mul_left a₂) (e₂.mul_left a₁)

end Realizes

/-- A new filter gives what its coefficients say. -/
theorem realizes_of_tracks [LinearOrder α] {f : DigitalFilter α} {feedback : List α}
    (h : (Run.start f).Tracks f.b f.a) (ha : f.a = 1 :: feedback) :
    Realizes f (polynomialOf f.b) (polynomialOf f.a) where
  coeff_zero_ne := by simp [ha]
  equation us := by
    have ht := Run.tracks_through h (us.map .apply)
    have hrun : Run.through f (us.map .apply) =
        ⟨(f.applyAll us).2, 0, 0, us, (f.applyAll us).1⟩ := Run.foldl_apply (Run.start f) us
    rw [hrun] at ht
    refine X_pow_dvd_iff.2 fun time hl => ?_
    have he := ht.equation time hl
    rw [ha] at he
    rw [coeff_sub, sub_eq_zero, ha]
    exact coeff_mul_eq_of_differenceAt he rfl

end Realizes

/-! ## Transfer functions in series and in parallel -/

section Transfer

variable {α : Type} [Field α] [LinearOrder α] [IsStrictOrderedRing α] [FloorRing α] [Elementary α]
  [ExactElementary α] {rate : α} {h h₁ h₂ : TransferFunction α} {f f₁ f₂ : DigitalFilter α}

/-- The filter of a transfer function realizes what the transform makes of it. -/
theorem realizes_of_ofTransferFunction (hf : ofTransferFunction rate h = .ok f) :
    ∃ n, h.denominator.toPolynomial ≠ 0 ∧ h.denominator.toPolynomial.natDegree = n ∧
      h.numerator.toPolynomial.natDegree ≤ n ∧
      Realizes f (discretized (2 * rate) n h.numerator.toPolynomial)
        (discretized (2 * rate) n h.denominator.toPolynomial) := by
  obtain ⟨n, c, hd, hn, hc, hb, ha⟩ := polynomialOf_ofTransferFunction hf
  obtain ⟨feedback, hcons⟩ := List.head?_eq_some_iff.1 (head?_of_ofTransferFunction hf)
  obtain ⟨_, -, hf⟩ := bind_eq_ok_iff.1 hf
  have hr := realizes_of_tracks (Run.tracks_start hf) hcons
  rw [hb, ha] at hr
  exact ⟨n, Poly.toPolynomial_ne_zero hd, Poly.natDegree_of_degree? hd,
    h.numerator.natDegree_toPolynomial.trans_le hn, hr.of_mul_C hc⟩

/-- The filter of a product of transfer functions is the second filter after the first. -/
theorem applyAll_product (hf₁ : ofTransferFunction rate h₁ = .ok f₁)
    (hf₂ : ofTransferFunction rate h₂ = .ok f₂)
    (hf : ofTransferFunction rate
      ⟨h₁.numerator * h₂.numerator, h₁.denominator * h₂.denominator⟩ = .ok f) (us : List α) :
    (f.applyAll us).1 = (f₂.applyAll (f₁.applyAll us).1).1 := by
  obtain ⟨n₁, hd₁, hn₁, hb₁, hr₁⟩ := realizes_of_ofTransferFunction hf₁
  obtain ⟨n₂, hd₂, hn₂, hb₂, hr₂⟩ := realizes_of_ofTransferFunction hf₂
  obtain ⟨n, -, hn, -, hr⟩ := realizes_of_ofTransferFunction hf
  rw [Poly.toPolynomial_mul, natDegree_mul hd₁ hd₂, hn₁, hn₂] at hn
  rw [← hn, Poly.toPolynomial_mul, Poly.toPolynomial_mul, discretized_mul _ hb₁ hb₂,
    discretized_mul _ hn₁.le hn₂.le] at hr
  exact hr₁.cascade hr₂ hr us

/-- The filter of a sum of transfer functions is the sum of the filters. -/
theorem applyAll_sum (hf₁ : ofTransferFunction rate h₁ = .ok f₁)
    (hf₂ : ofTransferFunction rate h₂ = .ok f₂)
    (hf : ofTransferFunction rate
      ⟨h₁.numerator * h₂.denominator + h₂.numerator * h₁.denominator,
        h₁.denominator * h₂.denominator⟩ = .ok f) (us : List α) :
    (f.applyAll us).1 = List.zipWith (· + ·) (f₁.applyAll us).1 (f₂.applyAll us).1 := by
  obtain ⟨n₁, hd₁, hn₁, hb₁, hr₁⟩ := realizes_of_ofTransferFunction hf₁
  obtain ⟨n₂, hd₂, hn₂, hb₂, hr₂⟩ := realizes_of_ofTransferFunction hf₂
  obtain ⟨n, -, hn, -, hr⟩ := realizes_of_ofTransferFunction hf
  rw [Poly.toPolynomial_mul, natDegree_mul hd₁ hd₂, hn₁, hn₂] at hn
  rw [← hn, Poly.toPolynomial_add, Poly.toPolynomial_mul, Poly.toPolynomial_mul,
    Poly.toPolynomial_mul, discretized_add, discretized_mul _ hb₁ hn₂.le,
    discretized_mul _ hn₁.le hn₂.le, add_comm n₁, discretized_mul _ hb₂ hn₁.le] at hr
  exact hr₁.parallel hr₂ hr us

/-- **Filters in series and in parallel.** Make filters of two transfer functions and of their
product: on every input the last one gives what the second gives on the output of the first. Make
one of their sum: it gives the sum of what the two give. So a filter that passes a band is a high
pass at its lower edge followed by a low pass at its upper edge, and one that stops a band is a low
pass at its lower edge beside a high pass at its upper edge, whatever their order, damping and
frequencies. -/
theorem filters_compose (rate : α) :
    (∀ (h₁ h₂ : TransferFunction α) (f₁ f₂ f : DigitalFilter α),
      ofTransferFunction rate h₁ = .ok f₁ → ofTransferFunction rate h₂ = .ok f₂ →
      (ofTransferFunction rate
          ⟨h₁.numerator * h₂.numerator, h₁.denominator * h₂.denominator⟩ = .ok f →
        ∀ us, (f.applyAll us).1 = (f₂.applyAll (f₁.applyAll us).1).1) ∧
      (ofTransferFunction rate
          ⟨h₁.numerator * h₂.denominator + h₂.numerator * h₁.denominator,
            h₁.denominator * h₂.denominator⟩ = .ok f →
        ∀ us, (f.applyAll us).1 =
          List.zipWith (· + ·) (f₁.applyAll us).1 (f₂.applyAll us).1)) ∧
    ∀ (s : FilterSettings α) (lp hp f : DigitalFilter α),
      let low := s.cutoff - 0.5 * s.width
      let high := s.cutoff + 0.5 * s.width
      (s.kind = .bandPass → ofSettings rate s = .ok f →
        ofSettings rate (s.part .highPass low) = .ok hp →
        ofSettings rate (s.part .lowPass high) = .ok lp →
        ∀ us, (f.applyAll us).1 = (lp.applyAll (hp.applyAll us).1).1) ∧
      (s.kind = .bandStop → ofSettings rate s = .ok f →
        ofSettings rate (s.part .lowPass low) = .ok lp →
        ofSettings rate (s.part .highPass high) = .ok hp →
        ∀ us, (f.applyAll us).1 =
          List.zipWith (· + ·) (lp.applyAll us).1 (hp.applyAll us).1) := by
  refine ⟨fun h₁ h₂ f₁ f₂ f hf₁ hf₂ => ⟨applyAll_product hf₁ hf₂, applyAll_sum hf₁ hf₂⟩,
    fun s lp hp f => ⟨fun hk hf hhp hlp => ?_, fun hk hf hlp hhp => ?_⟩⟩
  · obtain ⟨h, hs, hf⟩ := bind_eq_ok_iff.1 hf
    obtain ⟨h₁, hs₁, hf₁⟩ := bind_eq_ok_iff.1 hhp
    obtain ⟨h₂, hs₂, hf₂⟩ := bind_eq_ok_iff.1 hlp
    rw [FilterSettings.transferFunction_bandPass hk hs₁ hs₂ hs] at hf
    exact applyAll_product hf₁ hf₂ hf
  · obtain ⟨h, hs, hf⟩ := bind_eq_ok_iff.1 hf
    obtain ⟨h₁, hs₁, hf₁⟩ := bind_eq_ok_iff.1 hlp
    obtain ⟨h₂, hs₂, hf₂⟩ := bind_eq_ok_iff.1 hhp
    rw [FilterSettings.transferFunction_bandStop hk hs₁ hs₂ hs] at hf
    exact applyAll_sum hf₁ hf₂ hf

end Transfer

/-- The band from one to three hertz, of third order with a resonance, at ten samples per second;
and the product and the sum of `1 / (s + 1)` and `s / (s + 2)`. -/
theorem filters_compose_third_order :
    let s : FilterSettings ℝ := ⟨.bandPass, 3, 2, 1 / 2, 2, false, false, "", ""⟩
    let low := s.cutoff - 0.5 * s.width
    let high := s.cutoff + 0.5 * s.width
    let h₁ : TransferFunction ℝ := ⟨Poly.ofList [1], Poly.ofList [1, 1]⟩
    let h₂ : TransferFunction ℝ := ⟨Poly.ofList [0, 1], Poly.ofList [2, 1]⟩
    (∃ lp hp f : DigitalFilter ℝ,
      ofSettings 10 s = .ok f ∧
      ofSettings 10 (s.part .highPass low) = .ok hp ∧
      ofSettings 10 (s.part .lowPass high) = .ok lp ∧
      (f.applyAll [1, 0, -1]).1 = (lp.applyAll (hp.applyAll [1, 0, -1]).1).1) ∧
    (∃ lp hp f : DigitalFilter ℝ,
      ofSettings 10 { s with kind := .bandStop } = .ok f ∧
      ofSettings 10 (s.part .lowPass low) = .ok lp ∧
      ofSettings 10 (s.part .highPass high) = .ok hp ∧
      (f.applyAll [1, 0, -1]).1 =
        List.zipWith (· + ·) (lp.applyAll [1, 0, -1]).1 (hp.applyAll [1, 0, -1]).1) ∧
    ∃ f₁ f₂ f g : DigitalFilter ℝ,
      ofTransferFunction 10 h₁ = .ok f₁ ∧ ofTransferFunction 10 h₂ = .ok f₂ ∧
      ofTransferFunction 10
        ⟨h₁.numerator * h₂.numerator, h₁.denominator * h₂.denominator⟩ = .ok f ∧
      ofTransferFunction 10 ⟨h₁.numerator * h₂.denominator + h₂.numerator * h₁.denominator,
        h₁.denominator * h₂.denominator⟩ = .ok g ∧
      (f.applyAll [1, 0, -1]).1 = (f₂.applyAll (f₁.applyAll [1, 0, -1]).1).1 ∧
      (g.applyAll [1, 0, -1]).1 =
        List.zipWith (· + ·) (f₁.applyAll [1, 0, -1]).1 (f₂.applyAll [1, 0, -1]).1 := by
  intro s low high h₁ h₂
  obtain ⟨htransfer, hband⟩ := filters_compose (10 : ℝ)
  have hs (kind : FilterKind) (hertz : ℝ) : (s.part kind hertz).OfSections :=
    ⟨rfl, Nat.succ_pos 2, (by decide : 3 ≤ 64), by norm_num [FilterSettings.part, s],
      Real.pi_pos⟩
  have hlow : 0 < low := by norm_num [low, s]
  have hhigh : 0 < high := by norm_num [high, s]
  have hr : (0 : ℝ) < 10 := by norm_num
  obtain ⟨lp, hlp⟩ := (hs .lowPass high).exists_pass (.inl rfl) (by decide) hhigh hr
  obtain ⟨hp, hhp⟩ := (hs .highPass low).exists_pass (.inr rfl) (by decide) hlow hr
  obtain ⟨lp', hlp'⟩ := (hs .lowPass low).exists_pass (.inl rfl) (by decide) hlow hr
  obtain ⟨hp', hhp'⟩ := (hs .highPass high).exists_pass (.inr rfl) (by decide) hhigh hr
  have hw : 0 < s.width := by norm_num [s]
  obtain ⟨f, hf⟩ := (hs .bandPass s.cutoff).exists_band (.inl rfl) (by decide) hw hlow hr
  obtain ⟨g, hg⟩ := (hs .bandStop s.cutoff).exists_band (.inr rfl) (by decide) hw hlow hr
  refine ⟨⟨lp, hp, f, hf, hhp, hlp, (hband s lp hp f).1 rfl hf hhp hlp _⟩,
    ⟨lp', hp', g, hg, hlp', hhp',
      (hband { s with kind := .bandStop } lp' hp' g).2 rfl hg hlp' hhp' _⟩, ?_⟩
  have hpos₁ : h₁.Positive 1 :=
    ⟨by simpa [h₁, add_comm] using PositiveMonic.first (zero_le_one (α := ℝ)), by simp [h₁]⟩
  have hpos₂ : h₂.Positive 1 :=
    ⟨by simpa [h₂, add_comm] using PositiveMonic.first (zero_le_two (α := ℝ)), by simp [h₂]⟩
  obtain ⟨f₁, hf₁⟩ := hpos₁.exists_filter (by decide) hr
  obtain ⟨f₂, hf₂⟩ := hpos₂.exists_filter (by decide) hr
  obtain ⟨p, hp⟩ := (hpos₁.mul hpos₂).exists_filter (by decide) hr
  obtain ⟨q, hq⟩ := (hpos₁.add hpos₂).exists_filter (by decide) hr
  obtain ⟨hproduct, hsum⟩ := htransfer h₁ h₂ f₁ f₂ p hf₁ hf₂
  exact ⟨f₁, f₂, p, q, hf₁, hf₂, hp, hq, hproduct hp _, (htransfer h₁ h₂ f₁ f₂ q hf₁ hf₂).2 hq _⟩

end SignalCalc
