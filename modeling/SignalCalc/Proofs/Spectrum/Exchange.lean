import SignalCalc.Proofs.Series.Symmetry
import SignalCalc.Proofs.Spectrum.Columns

/-!
# Coherence of exchanged signals

If two signals are exchanged, their powers are, too, and the cross power is reflected in the real
axis: its imaginary part is a difference that is taken in the other order. In doubles such a
difference is the negative of the first one, or both are zeros, whose signs need not be opposite
(`Double.IsOpposite`). The sums over the blocks keep this relation (`BinPowers.IsExchange.add`), and
what the coherence reads of the cross power is its squared norm, which does not depend on the signs.
So the coherence is the same double to the last bit, whatever the transform has made of the blocks.

Main statement: `coherence_is_symmetric`.
-/

namespace SignalCalc

open Double (IsOpposite)

/-! ## Sums at one bin -/

namespace BinPowers

/-- The second sums are those of the same blocks with input and output exchanged. -/
structure IsExchange (p q : BinPowers Float) : Prop where
  input : q.input = p.output
  output : q.output = p.input
  re : q.cross.re = p.cross.re
  im : IsOpposite p.cross.im q.cross.im

/-- Powers that are all zero are the exchange of each other. -/
theorem isExchange_zero : IsExchange 0 0 :=
  ⟨rfl, rfl, rfl, .inr ⟨Double.isZero_zero, Double.isZero_zero⟩⟩

/-- The powers of one block. Of the four products in the cross power the two with both imaginary
parts or none make up the real part, where the order does not matter. -/
theorem isExchange_of (x y : Cplx Float) : IsExchange (of x y) (of y x) := by
  refine ⟨rfl, rfl, ?_, ?_⟩
  · show y.re * x.re - -y.im * x.im = x.re * y.re - -x.im * y.im
    rw [Double.neg_mul, Double.neg_mul, Double.mul_comm y.re, Double.mul_comm y.im]
  · show IsOpposite (x.re * y.im + -x.im * y.re) (y.re * x.im + -y.im * x.re)
    rw [Double.neg_mul, Double.neg_mul, ← Double.sub_eq_add_neg, ← Double.sub_eq_add_neg,
      Double.mul_comm y.re, Double.mul_comm y.im]
    exact Double.isOpposite_sub _ _

/-- Sums of exchanged powers are exchanged. -/
theorem IsExchange.add {p q p' q' : BinPowers Float} (h : IsExchange p q)
    (h' : IsExchange p' q') : IsExchange (p + p') (q + q') := by
  constructor
  · rw [add_input, add_output, h.input, h'.input]
  · rw [add_input, add_output, h.output, h'.output]
  · rw [add_cross, add_cross, Cplx.add_re, Cplx.add_re, h.re, h'.re]
  · exact h.im.add h'.im

/-- The bound of the powers, the checks of it and the share are the same numbers. -/
theorem IsExchange.coherence_eq {p q : BinPowers Float} (h : IsExchange p q) :
    q.coherence = p.coherence := by
  have hmost : q.input * q.output = p.input * p.output := by
    rw [h.input, h.output, Double.mul_comm]
  have hnorm : q.cross.normSq = p.cross.normSq := by
    rw [Cplx.normSq, Cplx.normSq, h.re, h.im.mul_self]
  simp only [coherence, hmost, hnorm]

end BinPowers

/-! ## Sums at all bins -/

section Sums

open BinPowers (IsExchange)

/-- Sums of exchanged powers are exchanged in every bin. -/
theorem isExchange_zipWith_add {ps qs ps' qs' : List (BinPowers Float)}
    (h : List.Forall₂ IsExchange ps qs) (h' : List.Forall₂ IsExchange ps' qs') :
    List.Forall₂ IsExchange (List.zipWith (· + ·) ps ps') (List.zipWith (· + ·) qs qs') := by
  induction h generalizing ps' qs' with
  | nil => exact .nil
  | cons hhead _ ih =>
    cases h' with
    | nil => exact .nil
    | cons hhead' htail' => exact .cons (hhead.add hhead') (ih htail')

/-- The powers of a block with input and output exchanged. -/
theorem isExchange_block (xs ys : List (Cplx Float)) :
    List.Forall₂ IsExchange (List.zipWith BinPowers.of xs ys)
      (List.zipWith BinPowers.of ys xs) := by
  induction xs generalizing ys with
  | nil =>
    rw [List.zipWith_nil_left, List.zipWith_nil_right]
    exact .nil
  | cons x xs ih =>
    cases ys with
    | nil => exact .nil
    | cons y ys => exact .cons (BinPowers.isExchange_of x y) (ih ys)

/-- The sums over blocks with input and output exchanged. The induction adds one block after the
other, as the loop does. -/
theorem isExchange_summedPowers (bins : Nat)
    (blocks : List (List (Cplx Float) × List (Cplx Float))) :
    List.Forall₂ IsExchange (summedPowers bins blocks)
      (summedPowers bins (blocks.map Prod.swap)) := by
  induction blocks using List.reverseRecOn with
  | nil =>
    refine List.forall₂_same.2 fun p hp => ?_
    rw [summedPowers, List.foldl_nil] at hp
    rw [List.eq_of_mem_replicate hp]
    exact BinPowers.isExchange_zero
  | append_singleton blocks b ih =>
    rw [List.map_append, List.map_singleton, summedPowers_concat, summedPowers_concat]
    exact isExchange_zipWith_add ih (isExchange_block b.1 b.2)

/-- The coherence does not depend on which signal comes first, in any bin. -/
theorem map_coherence_exchange (bins : Nat)
    (blocks : List (List (Cplx Float) × List (Cplx Float))) :
    (summedPowers bins (blocks.map Prod.swap)).map BinPowers.coherence =
      (summedPowers bins blocks).map BinPowers.coherence := by
  have h := isExchange_summedPowers bins blocks
  generalize summedPowers bins blocks = ps at h
  generalize summedPowers bins (blocks.map Prod.swap) = qs at h
  induction h with
  | nil => rfl
  | cons hpq _ ih => rw [List.map_cons, List.map_cons, hpq.coherence_eq, ih]

end Sums

/-! ## Two signals -/

/-- Exchanged signals with the same positions have the same blocks, exchanged. -/
theorem responseBlocks_exchange {input output : Series Float} (hf : input.HasFinitePositions)
    (h : input.xs = output.xs) (count : Nat) (window : Window) :
    responseSize output input count = responseSize input output count ∧
      responseBlocks output input count window =
        (responseBlocks input output count window).map Prod.swap := by
  have hsize : responseSize output input count = responseSize input output count := by
    rw [responseSize, responseSize, hf.align_eq h, (hf.congr h).align_eq h.symm,
      Series.size_congr h]
  refine ⟨hsize, ?_⟩
  rw [responseBlocks, responseBlocks, hsize, hf.align_eq h, (hf.congr h).align_eq h.symm,
    List.map_map]
  rfl

/-- **Coherence is symmetric.** Whatever bins the blocks of two signals have, the coherences of the
sums over them do not change if input and output are exchanged. For signals with the same finite
positions, whatever their values are, every count of averages and every window, the coherence is
the same in either order, to the last bit: the same error, or the same values at the same
frequencies. -/
theorem coherence_is_symmetric :
    (∀ (bins : Nat) (blocks : List (List (Cplx Float) × List (Cplx Float))),
      (summedPowers bins (blocks.map Prod.swap)).map BinPowers.coherence =
        (summedPowers bins blocks).map BinPowers.coherence) ∧
    ∀ input output : Series Float, input.HasFinitePositions → input.xs = output.xs →
      ∀ (count : Nat) (window : Window),
        coherence output input count window = coherence input output count window := by
  refine ⟨map_coherence_exchange, fun input output hf h count window => ?_⟩
  obtain ⟨hsize, hblocks⟩ := responseBlocks_exchange hf h count window
  have hperiod := Series.period_congr h
  rw [coherence, coherence, CrossSpectrum.ofSignals_eq, CrossSpectrum.ofSignals_eq, hsize, hblocks,
    hf.align_eq h, (hf.congr h).align_eq h.symm, Series.size_congr h, hperiod]
  split
  · rfl
  · cases output.period with
    | error e => rfl
    | ok dt =>
      rw [ok_bind, ok_bind]
      split
      · rfl
      · rw [ok_bind, ok_bind, CrossSpectrum.coherence, CrossSpectrum.coherence,
          map_coherence_exchange]
        rfl

/-- In the second of two blocks the output is a quarter of a turn ahead of the input, so half of its
power is explained. The positions are not sorted, and one of them repeats. -/
theorem coherence_is_symmetric_quarter_turn :
    let s : Series Float := ⟨[⟨0, 1⟩, ⟨3, 0⟩, ⟨1, 0⟩, ⟨1, 0⟩, ⟨5, 1⟩, ⟨2, 0⟩, ⟨6, 0⟩, ⟨7, 0⟩]⟩
    let t : Series Float := ⟨[⟨0, 1⟩, ⟨3, 0⟩, ⟨1, 0⟩, ⟨1, 0⟩, ⟨5, 0⟩, ⟨2, 0⟩, ⟨6, 0⟩, ⟨7, 1⟩]⟩
    s.HasFinitePositions ∧ s.xs = t.xs ∧ ∃ c, coherence s t 2 .uniform = .ok c ∧
      coherence t s 2 .uniform = .ok c ∧ c.xs = [0.25] ∧ c.ys = [0.5] := by
  intro s t
  have hf : s.HasFinitePositions := by
    show ∀ x ∈ [(0 : Float), 3, 1, 1, 5, 2, 6, 7], isFinite x = true
    decide +kernel
  have hspacing : (s.align t).1.spacing? = some 1 := by decide +kernel
  have hperiod : (s.align t).1.period = .ok 1 := by
    rw [Series.period, hspacing]
    exact if_pos (by decide +kernel)
  have hfour : responseSize s t 2 = 4 := by decide +kernel
  have hdf : (1.0 : Float) / ((4 : Nat) * 1) = 0.25 := by decide +kernel
  have hsums : CrossSpectrum.ofSignals s t 2 .uniform =
      .ok ⟨0.25, summedPowers 1 (responseBlocks s t 2 .uniform)⟩ := by
    rw [CrossSpectrum.ofSignals_eq_ok_iff, hfour]
    exact ⟨by decide, by decide, 1, hperiod, by rw [hdf]⟩
  have hshare : (summedPowers 1 (responseBlocks s t 2 .uniform)).map BinPowers.coherence =
      [0.5] := by
    decide +kernel
  have hc : coherence s t 2 .uniform = .ok ⟨[⟨(1 : Nat) * 0.25, 0.5⟩]⟩ := by
    rw [coherence, hsums, ok_bind, CrossSpectrum.coherence, hshare]
    rfl
  have hsymm := coherence_is_symmetric.2 s t hf rfl 2 .uniform
  exact ⟨hf, rfl, _, hc, hsymm.trans hc, by decide +kernel, rfl⟩

end SignalCalc
