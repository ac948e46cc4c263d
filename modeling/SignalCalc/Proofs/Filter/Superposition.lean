import SignalCalc.Proofs.Filter.Columns
import SignalCalc.Proofs.Filter.Prototype
import SignalCalc.Proofs.Filter.SteadyState

/-!
# Filtering a history is linear

The difference equation is linear in its two signals, so superposed solutions solve it
(`Obeys.superposed`). A history is filtered from the steady state of its first value, and both
values that stand for the time before are multiples of this first value: superposed histories are
settled on superposed values. Running the output through the filter backwards is linear again, since
reversing is. The filter itself comes from the settings and from the positions alone.

Main statement: `Series.filtering_is_linear`.
-/

namespace SignalCalc

open DigitalFilter

section Superposed

variable {α : Type} [Field α] {x y : α} {us vs : List α}

/-- Two lists of values, each under a factor, added up. -/
def superposed (x y : α) (us vs : List α) : List α :=
  List.zipWith (fun u v => x * u + y * v) us vs

/-- The sum of lists of one length has this length. -/
theorem length_superposed (h : us.length = vs.length) :
    (superposed x y us vs).length = us.length := by
  rw [superposed, List.length_zipWith, h, min_self]

/-- Lists that are added up may be turned around before or after. -/
theorem superposed_reverse (h : us.length = vs.length) :
    superposed x y us.reverse vs.reverse = (superposed x y us vs).reverse :=
  (List.reverse_zipWith h).symm

/-! ## Superposed solutions -/

/-- Signals are added up at every time, also before the first sample. -/
theorem extended_superposed (u₀ v₀ : α) (h : us.length = vs.length) (time : Int) :
    extended (x * u₀ + y * v₀) (superposed x y us vs) time =
      x * extended u₀ us time + y * extended v₀ vs time := by
  simp only [extended]
  split
  · rfl
  · simp only [superposed, List.getD_eq_getElem?_getD, List.getElem?_zipWith]
    rcases Nat.lt_or_ge time.toNat us.length with hn | hn
    · rw [List.getElem?_eq_getElem hn, List.getElem?_eq_getElem (h ▸ hn)]
      rfl
    · rw [List.getElem?_eq_none hn, List.getElem?_eq_none (h ▸ hn)]
      rfl

/-- The equation over superposed signals. -/
theorem differenceAt_superposed (b a : List α) (u₁ y₁ u₂ y₂ : Int → α) (time : Int) :
    differenceAt b a (fun t => x * u₁ t + y * u₂ t) (fun t => x * y₁ t + y * y₂ t) time =
      x * differenceAt b a u₁ y₁ time + y * differenceAt b a u₂ y₂ time := by
  have h (cs : List α) (first : Nat) (p q : Int → α) :
      ((cs.zipIdx first).map fun c => c.1 * (x * p (time - c.2) + y * q (time - c.2))).sum =
        x * ((cs.zipIdx first).map fun c => c.1 * p (time - c.2)).sum +
          y * ((cs.zipIdx first).map fun c => c.1 * q (time - c.2)).sum := by
    rw [← List.sum_map_mul_left, ← List.sum_map_mul_left, ← List.sum_map_add]
    congr 1
    refine List.map_congr_left fun c _ => ?_
    ring
  simp only [differenceAt_eq_sum, h]
  ring

/-- The difference equation is linear: added inputs have the added outputs. -/
theorem Obeys.superposed {b a ys zs : List α} {u₀ y₀ v₀ z₀ : α} (h₁ : Obeys b a u₀ y₀ us ys)
    (h₂ : Obeys b a v₀ z₀ vs zs) (h : us.length = vs.length) :
    Obeys b a (x * u₀ + y * v₀) (x * y₀ + y * z₀) (superposed x y us vs)
      (superposed x y ys zs) := by
  have hout : ys.length = zs.length := by rw [h₁.length_eq, h₂.length_eq, h]
  constructor
  · rw [length_superposed h, length_superposed hout, h₁.length_eq]
  · intro n hn
    rw [length_superposed h] at hn
    have hu := funext (extended_superposed (x := x) (y := y) u₀ v₀ h)
    have hy := funext (extended_superposed (x := x) (y := y) y₀ z₀ hout)
    rw [hu, hy, differenceAt_superposed, SignalCalc.superposed, List.getElem?_zipWith,
      h₁.equation n hn, h₂.equation n (h ▸ hn)]

end Superposed

/-! ## Columns through a filter -/

section Columns

variable {α : Type} [Field α] [LinearOrder α] {x y : α} {us vs : List α} {f : DigitalFilter α}

namespace DigitalFilter

/-- The outputs for a list of samples obey the equation, with the steady state of the first sample
before them. -/
theorem obeys_filterList (h : (Run.start f).Tracks f.b f.a) (us : List α) :
    Obeys f.b f.a (us.headD 0) (us.headD 0 * f.steadyGain) us (f.filterList us) := by
  cases us with
  | nil => exact ⟨rfl, nofun⟩
  | cons u us =>
    rw [List.headD_cons, ← output_settle]
    exact obeys_applyAll h [] u (u :: us)

/-- A filter that starts settled on the first value is linear in its input. -/
theorem filterList_superposed (h : (Run.start f).Tracks f.b f.a) (hl : us.length = vs.length) :
    f.filterList (superposed x y us vs) = superposed x y (f.filterList us) (f.filterList vs) := by
  have hhead : (superposed x y us vs).headD 0 = x * us.headD 0 + y * vs.headD 0 := by
    rcases us with _ | ⟨u, us⟩ <;> rcases vs with _ | ⟨v, vs⟩
    · simp [superposed]
    · cases hl
    · cases hl
    · rfl
  -- The seeds of the superposed history are the superposed seeds.
  have hout := obeys_filterList h (superposed x y us vs)
  rw [hhead, add_mul, mul_assoc, mul_assoc] at hout
  exact hout.unique ((obeys_filterList h us).superposed (obeys_filterList h vs) hl)

/-- A constant is multiplied by the steady gain from the first sample on. -/
theorem filterList_constant (h : (Run.start f).Tracks f.b f.a) (ha : f.a.head? = some 1)
    (hs : total f.a ≠ 0) (c : α) (n : Nat) :
    f.filterList (List.replicate n c) = List.replicate n (c * f.steadyGain) := by
  cases n with
  | zero => rfl
  | succ n => exact applyAll_constant h ha hs [] c (n + 1)

/-- A column run through a filter; if it is asked for, once more from its end. -/
def filterColumn (f : DigitalFilter α) (phaseless : Bool) (us : List α) : List α :=
  if phaseless then (f.filterList (f.filterList us).reverse).reverse else f.filterList us

/-- A filter is linear, also if it runs forth and back. -/
theorem filterColumn_superposed (h : (Run.start f).Tracks f.b f.a) (hl : us.length = vs.length)
    (phaseless : Bool) :
    f.filterColumn phaseless (superposed x y us vs) =
      superposed x y (f.filterColumn phaseless us) (f.filterColumn phaseless vs) := by
  cases phaseless with
  | false => exact filterList_superposed h hl
  | true =>
    have hforward : (f.filterList us).length = (f.filterList vs).length := by
      rw [length_filterList, length_filterList, hl]
    have hbackward : (f.filterList us).reverse.length = (f.filterList vs).reverse.length := by
      rw [List.length_reverse, List.length_reverse, hforward]
    have hout : (f.filterList (f.filterList us).reverse).length =
        (f.filterList (f.filterList vs).reverse).length := by
      rw [length_filterList, length_filterList, hbackward]
    simp only [filterColumn, if_true]
    rw [filterList_superposed h hl, ← superposed_reverse hforward,
      filterList_superposed h hbackward, superposed_reverse hout]

/-- A constant is multiplied by the steady gain once for each run. -/
theorem filterColumn_constant (h : (Run.start f).Tracks f.b f.a) (ha : f.a.head? = some 1)
    (hs : total f.a ≠ 0) (c : α) (n : Nat) (phaseless : Bool) :
    f.filterColumn phaseless (List.replicate n c) =
      List.replicate n (if phaseless then c * f.steadyGain ^ 2 else c * f.steadyGain) := by
  cases phaseless with
  | false => exact filterList_constant h ha hs c n
  | true =>
    simp only [filterColumn, if_true]
    rw [filterList_constant h ha hs, List.reverse_replicate, filterList_constant h ha hs,
      List.reverse_replicate, mul_assoc, pow_two]

end DigitalFilter

end Columns

/-! ## Histories -/

namespace Series

section Outcome

variable {α : Type} [Zero α] [One α] [Neg α] [Add α] [Sub α] [Mul α] [Div α] [NatCast α]
  [OfScientific α] [LT α] [DecidableLT α] [LE α] [DecidableLE α] [BEq α] [Elementary α]
  {s t : Series α}

/-- Whether a history is filtered, and at which positions its values stand then, depends on its
positions alone. -/
theorem map_xs_filtered (h : s.xs = t.xs) (settings : FilterSettings α) :
    (s.filtered settings).map xs = (t.filtered settings).map fun _ => s.xs := by
  rw [filtered, filtered, sampleRate_congr h]
  cases t.sampleRate with
  | error e => rfl
  | ok rate =>
    simp only [ok_bind]
    cases DigitalFilter.ofSettings rate settings with
    | error e => rfl
    | ok f =>
      simp only [ok_bind, pure_eq_ok, map_ok]
      split <;> simp [f.xs_filterSeries]

end Outcome

variable {α : Type} [Field α] [LinearOrder α] [Elementary α] {s r : Series α}
  {settings : FilterSettings α}

/-- Histories at the same positions go through the same filter. -/
theorem exists_filter_of_filtered (h : s.filtered settings = .ok r) :
    ∃ rate f, ofSettings rate settings = .ok f ∧ ∀ t : Series α, t.xs = s.xs →
      ∃ q, t.filtered settings = .ok q ∧ q.xs = s.xs ∧
        q.ys = f.filterColumn settings.phaseless t.ys := by
  obtain ⟨rate, f, hr, hf, -⟩ := filtered_eq_ok_iff.1 h
  refine ⟨rate, f, hf, fun t hx => ?_⟩
  have ht := filtered_eq_ok_iff.2 ⟨rate, f, (sampleRate_congr hx).trans hr, hf, rfl⟩
  have hys (t : Series α) : (f.filterSeries t).ys = f.filterList t.ys :=
    congrArg SignalCalc.Columns.ys (f.columns_filterSeries t)
  refine ⟨_, ht, (xs_of_filtered ht).trans hx, ?_⟩
  rw [filterColumn]
  split
  · rw [ys_reverse, hys, ys_reverse, hys]
  · exact hys t

/-- The filter of settings starts with rings that fit its coefficients. -/
theorem tracks_of_ofSettings {rate : α} {f : DigitalFilter α}
    (h : ofSettings rate settings = .ok f) : (Run.start f).Tracks f.b f.a := by
  obtain ⟨_, -, h⟩ := bind_eq_ok_iff.1 h
  obtain ⟨_, -, h⟩ := bind_eq_ok_iff.1 h
  exact Run.tracks_start h

variable [IsStrictOrderedRing α] [FloorRing α] [ExactElementary α]

/-- **Filtering a history is linear.** Fix the settings of a filter, phaseless or not. Whether a
history is filtered, or why not, depends on its positions alone, and the result has these positions
in their order. The values of superposed histories become the superposed results. A constant history
becomes its multiple by the value of the transfer function at zero, or by the square of that if the
filter is phaseless, unless the denominator vanishes there. -/
theorem filtering_is_linear (settings : FilterSettings α) :
    (∀ s t : Series α, s.xs = t.xs →
      (s.filtered settings).map xs = (t.filtered settings).map fun _ => s.xs) ∧
    (∀ (s₁ s₂ s r₁ r₂ : Series α) (x y : α), s₁.xs = s.xs → s₂.xs = s.xs →
      s.ys = superposed x y s₁.ys s₂.ys →
      s₁.filtered settings = .ok r₁ → s₂.filtered settings = .ok r₂ →
      ∃ r, s.filtered settings = .ok r ∧ r.xs = s.xs ∧ r.ys = superposed x y r₁.ys r₂.ys) ∧
    ∀ (s r : Series α) (h : TransferFunction α) (c : α), s.filtered settings = .ok r →
      settings.transferFunction = .ok h → h.denominator.evaluate 0 ≠ 0 →
      s.ys = List.replicate s.size c →
      let gain := h.numerator.evaluate 0 / h.denominator.evaluate 0
      r.ys = List.replicate s.size (if settings.phaseless then c * gain ^ 2 else c * gain) := by
  refine ⟨fun s t hx => map_xs_filtered hx settings,
    fun s₁ s₂ s r₁ r₂ x y hx₁ hx₂ hy h₁ h₂ => ?_, fun s r h c hr hh h0 hc => ?_⟩
  · obtain ⟨rate, f, hf, hall⟩ := exists_filter_of_filtered h₁
    obtain ⟨q₁, hq₁, -, hys₁⟩ := hall s₁ rfl
    obtain ⟨q₂, hq₂, -, hys₂⟩ := hall s₂ (hx₂.trans hx₁.symm)
    obtain ⟨q, hq, hqx, hys⟩ := hall s hx₁.symm
    cases h₁.symm.trans hq₁
    cases h₂.symm.trans hq₂
    have hl : s₁.ys.length = s₂.ys.length := by
      rw [length_ys, length_ys, ← length_xs, ← length_xs, hx₁, hx₂]
    refine ⟨q, hq, hqx.trans hx₁, ?_⟩
    rw [hys, hys₁, hys₂, hy, filterColumn_superposed (tracks_of_ofSettings hf) hl]
  · obtain ⟨rate, f, hf, hall⟩ := exists_filter_of_filtered hr
    obtain ⟨q, hq, -, hys⟩ := hall s rfl
    cases hr.symm.trans hq
    have ht := tracks_of_ofSettings hf
    rw [FilterSettings.ofSettings_eq hh] at hf
    obtain ⟨hs, hgain⟩ := steadyGain_of_ofTransferFunction hf h0
    rw [hys, hc, filterColumn_constant ht (head?_of_ofTransferFunction hf) hs, hgain]

/-- A phaseless Butterworth low pass of second order, on histories with two samples per second. The
second one is constant and stays so. -/
theorem filtering_is_linear_phaseless :
    let settings : FilterSettings ℝ := ⟨.lowPass, 2, 1 / 4, 0, 0, true, true, "", ""⟩
    let s₁ : Series ℝ := ⟨[⟨0, 1⟩, ⟨1 / 2, 3⟩, ⟨1, -2⟩]⟩
    let s₂ : Series ℝ := ⟨[⟨0, 4⟩, ⟨1 / 2, 4⟩, ⟨1, 4⟩]⟩
    let s : Series ℝ := ⟨[⟨0, 14⟩, ⟨1 / 2, 18⟩, ⟨1, 8⟩]⟩
    ∃ r₁ r₂ r, s₁.filtered settings = .ok r₁ ∧ s₂.filtered settings = .ok r₂ ∧
      s.filtered settings = .ok r ∧ r₂.ys = [4, 4, 4] ∧ r.xs = [0, 1 / 2, 1] ∧
      r.ys = superposed 2 3 r₁.ys r₂.ys := by
  intro settings s₁ s₂ s
  obtain ⟨-, hlinear, hconstant⟩ := filtering_is_linear settings
  have haccepted : settings.IsAccepted :=
    ⟨⟨by decide, by decide, by simp [settings]⟩, by norm_num [settings]⟩
  obtain ⟨h, hh, hprototype⟩ := FilterSettings.transferFunction_of_isAccepted haccepted
  have hrate : s₁.sampleRate = .ok 2 := by
    simp [sampleRate, spacing?, size, s₁]
    norm_num
  obtain ⟨f, hf⟩ := FilterSettings.exists_ofSettings (by decide) hh (by decide) two_pos
  have h₁ := filtered_eq_ok_iff.2 ⟨2, f, hrate, hf, rfl⟩
  have h₂ := filtered_eq_ok_iff.2 ⟨2, f, (sampleRate_congr (t := s₁) (s := s₂) rfl).trans hrate,
    hf, rfl⟩
  have hys : s.ys = superposed 2 3 s₁.ys s₂.ys := by
    norm_num [Series.ys, superposed, s, s₁, s₂]
  obtain ⟨r, hr, hxs, hsum⟩ := hlinear s₁ s₂ s _ _ 2 3 rfl rfl hys h₁ h₂
  have hfour := hconstant s₂ _ h 4 h₂ hh hprototype.evaluate_zero_ne rfl
  simp only [hprototype.evaluate_zero_div] at hfour
  have hvalue : (if settings.phaseless then 4 * settings.kind.gainAtZero ^ 2
      else 4 * settings.kind.gainAtZero) = 4 := by
    norm_num [settings, FilterKind.gainAtZero]
  rw [hvalue] at hfour
  exact ⟨_, _, r, h₁, h₂, hr, hfour, hxs, hsum⟩

end Series

end SignalCalc
