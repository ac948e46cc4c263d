import SignalCalc.Proofs.Spectrum.Columns

/-!
# The windows of a frequency response

Two aligned signals are cut into a count of windows, and the size of the windows is the greatest
power of two at which they fit (`partitions_maxPowerOfTwo`). The power is taken of the quotient of
two counts, which may leave up to half of the samples over, so there is no room for windows of twice
the size.

A window of such a size has `size / 2 - 1` bins with positive frequencies. The sums start with as
many zeros and every pair of windows adds as many powers, so nothing is cut off where the lists go
along, and one axis serves the gains, the phases and the coherences.

Main statement: `windows_partition_signals`.
-/

namespace SignalCalc

/-! ## Windows -/

/-- A count of windows of a size, one behind the other from the first sample on, where the size is
the greatest power of two at which they fit. -/
structure Partitions (samples size count : Nat) : Prop where
  isPowerOfTwo : ∃ m, size = 2 ^ m
  minBlock_le : minBlock ≤ size
  fits : count * size ≤ samples
  full : samples < count * (2 * size)
  greatest : ∀ m, count * 2 ^ m ≤ samples → 2 ^ m ≤ size
  inside : ∀ k < count, (k + 1) * size ≤ samples
  apart : ∀ j k, j < k → (j + 1) * size ≤ k * size

/-- A number lies between its greatest power of two and the next one. -/
theorem maxPowerOfTwo_spec {n : Nat} (h : n ≠ 0) :
    ∃ m, maxPowerOfTwo n = 2 ^ m ∧ 2 ^ m ≤ n ∧ n < 2 ^ (m + 1) :=
  ⟨n.log2, if_neg h, Nat.log2_self_le h, Nat.lt_log2_self⟩

/-- A power of two that is not above a number is not above its greatest power of two either. -/
theorem two_pow_le_maxPowerOfTwo {n m : Nat} (h : 2 ^ m ≤ n) : 2 ^ m ≤ maxPowerOfTwo n := by
  obtain ⟨k, hk, -, hlt⟩ := maxPowerOfTwo_spec (Nat.ne_of_gt (Nat.two_pow_pos m |>.trans_le h))
  have hexp : m < k + 1 := (Nat.pow_lt_pow_iff_right Nat.one_lt_two).1 (h.trans_lt hlt)
  rw [hk]
  exact Nat.pow_le_pow_right Nat.two_pos (Nat.le_of_lt_succ hexp)

/-- The least block is a power of two, so it fits into a power of two if it fits at all. -/
theorem minBlock_le_maxPowerOfTwo_iff {n : Nat} : minBlock ≤ maxPowerOfTwo n ↔ minBlock ≤ n := by
  constructor
  · intro h
    exact h.trans (maxPowerOfTwo_le n)
  · intro h
    have hpow : 2 ^ 2 ≤ n := h
    exact two_pow_le_maxPowerOfTwo hpow

/-- The power of two below the quotient of two counts is the greatest one that fits. -/
theorem partitions_maxPowerOfTwo {samples count : Nat} (hc : 0 < count)
    (h : minBlock * count ≤ samples) :
    Partitions samples (maxPowerOfTwo (samples / count)) count := by
  have hquotient : minBlock ≤ samples / count := (Nat.le_div_iff_mul_le hc).2 h
  have hne : samples / count ≠ 0 := Nat.ne_of_gt (Nat.lt_of_lt_of_le (by decide) hquotient)
  obtain ⟨m, hm, hle, hlt⟩ := maxPowerOfTwo_spec hne
  have hfits : count * 2 ^ m ≤ samples :=
    (Nat.mul_le_mul_left count hle).trans (Nat.mul_div_le samples count)
  constructor
  case isPowerOfTwo => exact ⟨m, hm⟩
  case minBlock_le => exact minBlock_le_maxPowerOfTwo_iff.2 hquotient
  case fits => exact hm ▸ hfits
  case full =>
    rw [hm, ← Nat.pow_succ', Nat.mul_comm]
    exact (Nat.div_lt_iff_lt_mul hc).1 hlt
  case greatest =>
    intro m' h'
    apply two_pow_le_maxPowerOfTwo
    rw [Nat.le_div_iff_mul_le hc, Nat.mul_comm]
    exact h'
  case inside =>
    intro k hk
    exact (Nat.mul_le_mul_right _ hk).trans (hm ▸ hfits)
  case apart =>
    intro j k hjk
    exact Nat.mul_le_mul_right _ hjk

/-! ## The axis -/

/-- The frequency of a bin of the windows of a size. -/
def binFrequency {α : Type} [Mul α] [Div α] [NatCast α] [OfScientific α] (size : Nat) (dt : α)
    (k : Nat) : α :=
  (k : α) * (1.0 / ((size : α) * dt))

/-- The frequencies of the bins that count for a response: all positive ones below the middle. -/
def responseAxis {α : Type} [Mul α] [Div α] [NatCast α] [OfScientific α] (size : Nat) (dt : α) :
    List α :=
  (List.range (size / 2 - 1)).map fun k => binFrequency size dt (k + 1)

/-- The frequencies of a series of bins start with the first one above zero. -/
theorem CrossSpectrum.xs_series {α : Type} [Mul α] [NatCast α] (s : CrossSpectrum α)
    (values : List α) :
    (s.series values).xs =
      (List.range values.length).map fun k : Nat => ((k + 1 : Nat) : α) * s.df := by
  have h := Series.columns_zipIdx values (fun k => ((k + 1 : Nat) : α) * s.df) id
  exact congrArg Columns.xs h

/-- In exact arithmetic the bins are at the multiples of one over the length of a window. -/
theorem binFrequency_eq {α : Type} [Field α] [CharZero α] (size : Nat) (dt : α) (k : Nat) :
    binFrequency size dt k = k / (size * dt) := by
  have hone : (1.0 : α) = 1 := by norm_num
  rw [binFrequency, hone, mul_one_div]

/-! ## Outcomes -/

/-- What a computation on series ends with is no index outside a column. -/
theorem Fault.lift_ne_outside {α β : Type} [Zero α] [BEq α] (r : Except (Error α) β) :
    lift r ≠ .error .outside := by
  intro h
  cases r with
  | ok b => cases h
  | error e => cases h

section Signals

variable {α : Type} [One α] [Sub α] [Mul α] [OfScientific α] [Max α] [LT α] [DecidableLT α] [LE α]
  [DecidableLE α] [Elementary α] {input output : Series α} {count : Nat} {window : Window}

/-- The blocks are long enough if the common samples suffice for as many of the least ones. -/
theorem minBlock_le_responseSize_iff (hc : 0 < count) :
    minBlock ≤ responseSize input output count ↔
      minBlock * count ≤ (input.align output).1.size := by
  rw [responseSize, minBlock_le_maxPowerOfTwo_iff, Nat.le_div_iff_mul_le hc]

variable [Zero α] [Neg α] [Add α] [Div α] [NatCast α]

/-- After any count of windows there is a sum for every bin of the next ones. -/
theorem length_summedPowers_take (k : Nat) :
    (summedPowers (responseSize input output count / 2 - 1)
      ((responseBlocks input output count window).take k)).length =
      responseSize input output count / 2 - 1 := by
  apply length_summedPowers
  intro b hb
  exact length_of_mem_responseBlocks _ _ _ _ (List.mem_of_mem_take hb)

/-- The constant and the upper half of the bins are left out. -/
theorem length_summedPowers_responseBlocks :
    (summedPowers (responseSize input output count / 2 - 1)
      (responseBlocks input output count window)).length =
      responseSize input output count / 2 - 1 :=
  length_summedPowers fun _ hb => length_of_mem_responseBlocks _ _ _ _ hb

variable [BEq α]

/-- Two signals have a response just if there are averages to take, every window gets the least
size, and the spacing of what the signals have in common is a positive number. -/
structure HasResponse (input output : Series α) (count : Nat) (dt : α) : Prop where
  count_pos : 0 < count
  le_size : minBlock * count ≤ (input.align output).1.size
  period_eq : (input.align output).1.period = .ok dt

/-- The powers of signals that have a response, over their windows. -/
theorem HasResponse.ofSignals_eq {dt : α} (h : HasResponse input output count dt)
    (window : Window) :
    CrossSpectrum.ofSignals input output count window =
      .ok ⟨1.0 / ((responseSize input output count : α) * dt),
        summedPowers (responseSize input output count / 2 - 1)
          (responseBlocks input output count window)⟩ := by
  rw [CrossSpectrum.ofSignals_eq_ok_iff]
  exact ⟨Nat.ne_of_gt h.count_pos, (minBlock_le_responseSize_iff h.count_pos).2 h.le_size, dt,
    h.period_eq, rfl⟩

/-- Signals whose powers are summed have a response. -/
theorem hasResponse_of_ofSignals {s : CrossSpectrum α}
    (h : CrossSpectrum.ofSignals input output count window = .ok s) :
    ∃ dt, HasResponse input output count dt := by
  obtain ⟨hc, hsize, dt, hdt, -⟩ := CrossSpectrum.ofSignals_eq_ok_iff.1 h
  have hpos := Nat.pos_of_ne_zero hc
  exact ⟨dt, hpos, (minBlock_le_responseSize_iff hpos).1 hsize, hdt⟩

/-- In all other cases the error is that of the averages, whatever is made of them. -/
theorem exists_error_of_not_hasResponse (h : ¬∃ dt, HasResponse input output count dt)
    (window : Window) :
    ∃ e, IsSpectrumError e ∧ CrossSpectrum.ofSignals input output count window = .error e ∧
      (∀ wrapped, frequencyResponse input output count window wrapped = .error e) ∧
      coherence input output count window = .error e := by
  cases hs : CrossSpectrum.ofSignals input output count window with
  | ok s => exact absurd (hasResponse_of_ofSignals hs) h
  | error e =>
    refine ⟨e, isSpectrumError_of_ofSignals hs, rfl, fun wrapped => ?_, ?_⟩
    · rw [frequencyResponse, hs, error_bind]
    · rw [coherence, hs, error_bind]

/-- All that is read off the sums of two signals has one axis. -/
theorem HasResponse.xs_eq {dt : α} (h : HasResponse input output count dt) (window : Window) :
    (∀ wrapped, ∃ r, frequencyResponse input output count window wrapped = .ok r ∧
      r.amplitude.xs = responseAxis (responseSize input output count) dt ∧
      r.phase.xs = responseAxis (responseSize input output count) dt ∧
      r.coherence.xs = responseAxis (responseSize input output count) dt) ∧
    ∃ c, coherence input output count window = .ok c ∧
      c.xs = responseAxis (responseSize input output count) dt := by
  have hs := h.ofSignals_eq window
  have haxis : ∀ values : List α,
      values.length = responseSize input output count / 2 - 1 →
      (CrossSpectrum.series ⟨1.0 / ((responseSize input output count : α) * dt),
        summedPowers (responseSize input output count / 2 - 1)
          (responseBlocks input output count window)⟩ values).xs =
        responseAxis (responseSize input output count) dt := by
    intro values hv
    rw [CrossSpectrum.xs_series, hv]
    rfl
  have hbins : (summedPowers (responseSize input output count / 2 - 1)
      (responseBlocks input output count window)).length =
      responseSize input output count / 2 - 1 :=
    length_summedPowers_responseBlocks
  constructor
  · intro wrapped
    rw [frequencyResponse, hs]
    refine ⟨_, rfl, haxis _ (by simp [hbins]), haxis _ ?_, haxis _ (by simp [hbins])⟩
    cases wrapped with
    | true => simp [hbins]
    | false => simp [hbins, length_unwrapPhase]
  · rw [coherence, hs]
    exact ⟨_, rfl, haxis _ (by simp [hbins])⟩

end Signals

/-- **Windows partition the signals.** Two signals have a response just if there are averages to
take, a positive spacing, and four samples in common for each average. Then the windows have the
greatest power of two as their size that fits, they lie side by side in both signals, and every pair
of them has a bin for each of the sums that there are so far. Gains, phases and coherences stand
over the same frequencies, which in exact arithmetic are the multiples of one over the length of a
window. In all other cases there is an error for missing data or for a bad parameter. No index is
ever outside of a column. -/
theorem windows_partition_signals {α β : Type}
    [Zero α] [One α] [Neg α] [Add α] [Sub α] [Mul α] [Div α] [NatCast α] [OfScientific α] [Max α]
    [LT α] [DecidableLT α] [LE α] [DecidableLE α] [BEq α] [Elementary α] [Field β] [CharZero β] :
    (∀ (input output : Series α) (count : Nat) (window : Window),
      let size := responseSize input output count
      let blocks := responseBlocks input output count window
      let xs := (input.align output).1.ys
      let ys := (input.align output).2.ys
      ((∃ s, CrossSpectrum.ofSignals input output count window = .ok s) ↔
        ∃ dt, HasResponse input output count dt) ∧
      (∀ dt, HasResponse input output count dt →
        CrossSpectrum.ofSignals input output count window =
          .ok ⟨1.0 / ((size : α) * dt), summedPowers (size / 2 - 1) blocks⟩ ∧
        Partitions (input.align output).1.size size count ∧
        xs.length = (input.align output).1.size ∧ ys.length = (input.align output).1.size ∧
        (∀ k < count, ∃ b, blocks[k]? = some b ∧
          b = (responseBins (Series.blockAt xs (k * size) size) window,
            responseBins (Series.blockAt ys (k * size) size) window) ∧
          b.1.length = size / 2 - 1 ∧ b.2.length = size / 2 - 1 ∧
          (summedPowers (size / 2 - 1) (blocks.take k)).length = size / 2 - 1) ∧
        (∀ wrapped, ∃ r, frequencyResponse input output count window wrapped = .ok r ∧
          r.amplitude.xs = responseAxis size dt ∧ r.phase.xs = responseAxis size dt ∧
          r.coherence.xs = responseAxis size dt) ∧
        ∃ c, coherence input output count window = .ok c ∧ c.xs = responseAxis size dt) ∧
      ((¬∃ dt, HasResponse input output count dt) →
        ∃ e, IsSpectrumError e ∧ CrossSpectrum.ofSignals input output count window = .error e ∧
          (∀ wrapped, frequencyResponse input output count window wrapped = .error e) ∧
          coherence input output count window = .error e) ∧
      input.columns.averagedSpectra output.columns count window ≠ .error .outside ∧
      (∀ wrapped, input.columns.frequencyResponse output.columns count window wrapped ≠
        .error .outside) ∧
      input.columns.coherence output.columns count window ≠ .error .outside) ∧
    ∀ (size : Nat) (dt : β),
      responseAxis size dt =
        (List.range (size / 2 - 1)).map fun k : Nat => ((k + 1 : Nat) : β) / (size * dt) := by
  refine ⟨fun input output count window => ⟨⟨?_, ?_⟩, fun dt h => ?_, fun h => ?_, ?_, ?_, ?_⟩,
    fun size dt => ?_⟩
  · rintro ⟨s, hs⟩
    exact hasResponse_of_ofSignals hs
  · rintro ⟨dt, h⟩
    exact ⟨_, h.ofSignals_eq window⟩
  · have hsize := Series.size_congr (Series.xs_align input output)
    have hparts := partitions_maxPowerOfTwo h.count_pos h.le_size
    refine ⟨h.ofSignals_eq window, hparts, Series.length_ys _,
      (Series.length_ys _).trans hsize.symm, fun k hk => ?_, h.xs_eq window⟩
    have hb : ∃ b, (responseBlocks input output count window)[k]? = some b ∧
        b = (responseBins (Series.blockAt (input.align output).1.ys
            (k * responseSize input output count) (responseSize input output count)) window,
          responseBins (Series.blockAt (input.align output).2.ys
            (k * responseSize input output count) (responseSize input output count)) window) := by
      simp [responseBlocks, hk]
    obtain ⟨b, hb, rfl⟩ := hb
    obtain ⟨hx, hy⟩ := length_of_mem_responseBlocks _ _ _ _ (List.mem_of_getElem? hb)
    exact ⟨_, hb, rfl, hx, hy, length_summedPowers_take k⟩
  · exact exists_error_of_not_hasResponse h window
  · rw [Series.columns_averagedSpectra]
    exact Fault.lift_ne_outside _
  · intro wrapped
    rw [Series.columns_frequencyResponse]
    exact Fault.lift_ne_outside _
  · rw [Series.columns_coherence]
    exact Fault.lift_ne_outside _
  · exact List.map_congr_left fun k _ => binFrequency_eq size dt (k + 1)

/-- Ten and nine samples have nine in common, of which two windows take four each. -/
theorem windows_partition_signals_nine :
    let s : Series Float := ⟨[⟨0, 1⟩, ⟨1, 3⟩, ⟨2, 2⟩, ⟨3, 0⟩, ⟨4, 1⟩, ⟨5, 5⟩, ⟨6, 2⟩, ⟨7, 4⟩,
      ⟨8, 1⟩, ⟨9, 3⟩]⟩
    let t : Series Float := ⟨[⟨1, 2⟩, ⟨2, 2⟩, ⟨3, 7⟩, ⟨4, 1⟩, ⟨5, 5⟩, ⟨6, 0⟩, ⟨7, 4⟩, ⟨8, 6⟩,
      ⟨9, 3⟩]⟩
    HasResponse s t 2 1 ∧ Partitions 9 4 2 ∧
      ∃ r, frequencyResponse s t 2 .hann false = .ok r ∧ r.phase.xs = [0.25] := by
  intro s t
  have hsize : (s.align t).1.size = 9 := by decide +kernel
  have hspacing : (s.align t).1.spacing? = some 1 := by decide +kernel
  have hperiod : (s.align t).1.period = .ok 1 := by
    rw [Series.period, hspacing]
    exact if_pos (by decide +kernel)
  have h : HasResponse s t 2 1 := ⟨Nat.two_pos, by rw [hsize]; decide, hperiod⟩
  have hfour : responseSize s t 2 = 4 := by
    rw [responseSize, hsize]
    rfl
  have haxis : responseAxis 4 (1 : Float) = [0.25] := by decide +kernel
  obtain ⟨-, hpartition, -⟩ := (windows_partition_signals (α := Float) (β := ℚ)).1 s t 2 .hann
  obtain ⟨-, hparts, -, -, -, hresponse, -⟩ := hpartition 1 h
  obtain ⟨r, hr, -, hphase, -⟩ := hresponse false
  rw [hfour] at hparts hphase
  exact ⟨h, hsize ▸ hparts, r, hr, hphase.trans haxis⟩

end SignalCalc
