import Mathlib.Algebra.Order.Field.Basic
import Mathlib.Tactic.Linarith
import Mathlib.Tactic.Ring
import SignalCalc.Proofs.Exact
import SignalCalc.Proofs.Spectrum.Blocks
import SignalCalc.Spectrum.Response

/-!
# Coherence as a share

Blocks of two signals add up to powers and a cross power at every bin. One block has no more cross
power than its powers allow, and sums keep this bound (`BinPowers.IsBounded.add`, the step of the
Cauchy–Schwarz inequality), so the coherence lies between zero and one before it is clamped. If in
all blocks the output is one multiple of the input, the response is this multiple, and the coherence
is one.

Main statements: `BinPowers.IsBounded.add`, `getElem?_summedPowers`, `coherence_is_share`.
-/

namespace SignalCalc

/-! ## Sums at one bin -/

namespace BinPowers

section Parts

variable {α : Type}

@[simp] theorem zero_input [Zero α] : (0 : BinPowers α).input = 0 := rfl

@[simp] theorem zero_output [Zero α] : (0 : BinPowers α).output = 0 := rfl

@[simp] theorem zero_cross [Zero α] : (0 : BinPowers α).cross = 0 := rfl

variable [Add α] (p q : BinPowers α)

@[simp] theorem add_input : (p + q).input = p.input + q.input := rfl

@[simp] theorem add_output : (p + q).output = p.output + q.output := rfl

@[simp] theorem add_cross : (p + q).cross = p.cross + q.cross := rfl

end Parts

/-- The sums of powers over what the blocks have at one bin. -/
def ofPairs {α : Type} [Zero α] [Neg α] [Add α] [Sub α] [Mul α] (pairs : List (Cplx α × Cplx α)) :
    BinPowers α :=
  pairs.foldl (fun p (x, y) => p + of x y) 0

/-- The powers of one more pair are added. -/
theorem ofPairs_concat {α : Type} [Zero α] [Neg α] [Add α] [Sub α] [Mul α]
    (pairs : List (Cplx α × Cplx α)) (x y : Cplx α) :
    ofPairs (pairs ++ [(x, y)]) = ofPairs pairs + of x y := by
  rw [ofPairs, List.foldl_append]
  rfl

section Bounded

variable {α : Type} [Field α]

/-- The powers of a single pair. -/
theorem ofPairs_singleton (b : Cplx α × Cplx α) : ofPairs [b] = of b.1 b.2 := by
  simp [ofPairs, BinPowers.ext_iff, Cplx.ext_iff]

/-- The cross power of one block is all that its powers allow. -/
theorem normSq_crossBin (x y : Cplx α) :
    (Spectrum.crossBin x y).normSq = x.normSq * y.normSq := by
  simp only [Spectrum.crossBin, Cplx.normSq, Cplx.mul_re, Cplx.mul_im, Cplx.conj_re, Cplx.conj_im]
  ring

/-- If the output is in all blocks the same multiple of the input, so is the cross power of the
input's power. -/
theorem ofPairs_of_eq_mul {g : Cplx α} {pairs : List (Cplx α × Cplx α)}
    (h : ∀ b ∈ pairs, b.2 = g * b.1) :
    (ofPairs pairs).cross = ⟨g.re * (ofPairs pairs).input, g.im * (ofPairs pairs).input⟩ ∧
      (ofPairs pairs).output = g.normSq * (ofPairs pairs).input := by
  induction pairs using List.reverseRecOn with
  | nil => simp [ofPairs, Cplx.ext_iff]
  | append_singleton pairs b ih =>
    obtain ⟨hc, ho⟩ := ih fun b hb => h b (List.mem_append_left _ hb)
    have hb := h b (by simp)
    rw [ofPairs_concat]
    simp only [add_input, add_output, add_cross, hc, ho, of, hb, Spectrum.crossBin, Cplx.normSq,
      Cplx.ext_iff, Cplx.add_re, Cplx.add_im, Cplx.mul_re, Cplx.mul_im, Cplx.conj_re, Cplx.conj_im]
    refine ⟨⟨?_, ?_⟩, ?_⟩ <;> ring

variable [LinearOrder α]

/-- No power is negative, and the cross power is not above what the powers allow. -/
structure IsBounded (p : BinPowers α) : Prop where
  input_nonneg : 0 ≤ p.input
  output_nonneg : 0 ≤ p.output
  cross_le : p.cross.normSq ≤ p.input * p.output

/-- Powers that are all zero are bounded. -/
theorem isBounded_zero : (0 : BinPowers α).IsBounded := by
  refine ⟨le_rfl, le_rfl, ?_⟩
  simp [Cplx.normSq]

variable [IsStrictOrderedRing α]

/-- A squared magnitude is not negative. -/
theorem normSq_nonneg (z : Cplx α) : 0 ≤ z.normSq :=
  add_nonneg (mul_self_nonneg _) (mul_self_nonneg _)

/-- The powers of a single pair are bounded. -/
theorem isBounded_of (x y : Cplx α) : (of x y).IsBounded :=
  ⟨normSq_nonneg x, normSq_nonneg y, (normSq_crossBin x y).le⟩

/-- Sums keep the bound. What is new in the product of the sums is `p.input * q.output` and
`q.input * p.output`; the mean of the two is not below their geometric mean, which bounds the mixed
term of the cross powers. -/
theorem IsBounded.add {p q : BinPowers α} (hp : p.IsBounded) (hq : q.IsBounded) :
    (p + q).IsBounded := by
  refine ⟨add_nonneg hp.input_nonneg hq.input_nonneg,
    add_nonneg hp.output_nonneg hq.output_nonneg, ?_⟩
  set mixed := p.cross.re * q.cross.re + p.cross.im * q.cross.im with hmixed
  have hsq : mixed ^ 2 ≤ (p.input * q.output) * (q.input * p.output) := by
    calc mixed ^ 2 ≤ p.cross.normSq * q.cross.normSq := by
          have h := sq_nonneg (p.cross.re * q.cross.im - p.cross.im * q.cross.re)
          simp only [Cplx.normSq]
          linarith
      _ ≤ (p.input * p.output) * (q.input * q.output) :=
          mul_le_mul hp.cross_le hq.cross_le (normSq_nonneg _)
            (mul_nonneg hp.input_nonneg hp.output_nonneg)
      _ = _ := by ring
  have hmean : (2 * mixed) ^ 2 ≤ (p.input * q.output + q.input * p.output) ^ 2 := by
    have h := sq_nonneg (p.input * q.output - q.input * p.output)
    linarith
  have hle : 2 * mixed ≤ p.input * q.output + q.input * p.output :=
    le_of_sq_le_sq hmean (add_nonneg (mul_nonneg hp.input_nonneg hq.output_nonneg)
      (mul_nonneg hq.input_nonneg hp.output_nonneg))
  have hcp := hp.cross_le
  have hcq := hq.cross_le
  simp only [Cplx.normSq, add_cross, add_input, add_output, Cplx.add_re, Cplx.add_im] at *
  linarith

/-- Summed powers are bounded, whatever the pairs. -/
theorem isBounded_ofPairs (pairs : List (Cplx α × Cplx α)) : (ofPairs pairs).IsBounded := by
  induction pairs using List.reverseRecOn with
  | nil => exact isBounded_zero
  | append_singleton pairs b ih =>
    rw [ofPairs_concat]
    exact ih.add (isBounded_of b.1 b.2)

/-- The share of bounded powers lies between zero and one. -/
theorem IsBounded.share_le_one {p : BinPowers α} (h : p.IsBounded) :
    0 ≤ p.cross.normSq / (p.input * p.output) ∧ p.cross.normSq / (p.input * p.output) ≤ 1 :=
  ⟨div_nonneg (normSq_nonneg _) (mul_nonneg h.input_nonneg h.output_nonneg),
    div_le_one_of_le₀ h.cross_le (mul_nonneg h.input_nonneg h.output_nonneg)⟩

/-- Clamping does not alter the share. -/
theorem IsBounded.clampUnit_share {p : BinPowers α} (h : p.IsBounded) :
    clampUnit (p.cross.normSq / (p.input * p.output)) =
      p.cross.normSq / (p.input * p.output) := by
  obtain ⟨h₀, h₁⟩ := h.share_le_one
  rw [clampUnit, if_neg (not_lt.2 h₀), if_neg (not_lt.2 h₁)]

/-- The coherence of powers within the bound is the share as it is. -/
theorem IsBounded.coherence_eq {p : BinPowers α} (h : p.IsBounded) :
    p.coherence =
      if 0 < p.input * p.output then p.cross.normSq / (p.input * p.output) else 0 := by
  simp only [coherence, h.clampUnit_share, isFinite_eq_true, Bool.and_true, decide_eq_true_eq]

/-- One block has full coherence wherever it has power. -/
theorem coherence_of (x y : Cplx α) :
    (of x y).coherence = if 0 < (of x y).input * (of x y).output then 1 else 0 := by
  rw [(isBounded_of x y).coherence_eq]
  split
  · next h =>
    rw [div_eq_one_iff_eq h.ne']
    exact normSq_crossBin x y
  · rfl

/-- Such a multiple is the response, and it explains the whole output. -/
theorem response_of_eq_mul {g : Cplx α} {pairs : List (Cplx α × Cplx α)} (hg : g ≠ 0)
    (h : ∀ b ∈ pairs, b.2 = g * b.1) (hp : 0 < (ofPairs pairs).input) :
    (ofPairs pairs).response = g ∧ (ofPairs pairs).coherence = 1 := by
  have hb := isBounded_ofPairs pairs
  obtain ⟨hc, ho⟩ := ofPairs_of_eq_mul h
  generalize ofPairs pairs = p at *
  have hn : 0 < g.normSq := by
    refine lt_of_le_of_ne (normSq_nonneg g) fun h0 => hg ?_
    obtain ⟨hre, him⟩ := (add_eq_zero_iff_of_nonneg (mul_self_nonneg _) (mul_self_nonneg _)).1
      (show g.re * g.re + g.im * g.im = 0 from h0.symm)
    exact Cplx.ext (mul_self_eq_zero.1 hre) (mul_self_eq_zero.1 him)
  have hmost : 0 < p.input * p.output := by
    rw [ho]
    positivity
  constructor
  · rw [response, hc]
    exact Cplx.ext (mul_div_cancel_right₀ _ hp.ne') (mul_div_cancel_right₀ _ hp.ne')
  · rw [hb.coherence_eq, if_pos hmost, div_eq_one_iff_eq hmost.ne', hc, ho]
    simp only [Cplx.normSq]
    ring

end Bounded

end BinPowers

/-! ## Sums at all bins -/

section Sums

variable {α : Type} [Zero α] [Neg α] [Add α] [Sub α] [Mul α]

/-- The sums of powers over pairs of blocks, given by their bins. -/
def summedPowers (bins : Nat) (blocks : List (List (Cplx α) × List (Cplx α))) :
    List (BinPowers α) :=
  blocks.foldl (fun sums b => List.zipWith (· + ·) sums (List.zipWith BinPowers.of b.1 b.2))
    (List.replicate bins 0)

/-- The powers of one more block are added bin by bin. -/
theorem summedPowers_concat (bins : Nat) (blocks : List (List (Cplx α) × List (Cplx α)))
    (b : List (Cplx α) × List (Cplx α)) :
    summedPowers bins (blocks ++ [b]) =
      List.zipWith (· + ·) (summedPowers bins blocks) (List.zipWith BinPowers.of b.1 b.2) := by
  rw [summedPowers, List.foldl_append]
  rfl

/-- Blocks with all bins have sums at all bins. -/
theorem length_summedPowers {bins : Nat} {blocks : List (List (Cplx α) × List (Cplx α))}
    (h : ∀ b ∈ blocks, b.1.length = bins ∧ b.2.length = bins) :
    (summedPowers bins blocks).length = bins := by
  induction blocks using List.reverseRecOn with
  | nil => exact List.length_replicate
  | append_singleton blocks b ih =>
    have hb := h b (by simp)
    rw [summedPowers_concat, List.length_zipWith, List.length_zipWith,
      ih fun b hb => h b (List.mem_append_left _ hb)]
    omega

/-- The sum at a bin is that over what the blocks have at this bin. -/
theorem getElem?_summedPowers {bins k : Nat} {blocks : List (List (Cplx α) × List (Cplx α))}
    {p : BinPowers α} (h : (summedPowers bins blocks)[k]? = some p) :
    ∃ pairs, List.Forall₂ (fun b q => b.1[k]? = some q.1 ∧ b.2[k]? = some q.2) blocks pairs ∧
      p = BinPowers.ofPairs pairs := by
  induction blocks using List.reverseRecOn generalizing p with
  | nil =>
    rw [summedPowers, List.foldl_nil, List.getElem?_replicate] at h
    split at h
    · cases h
      exact ⟨[], .nil, rfl⟩
    · cases h
  | append_singleton blocks b ih =>
    rw [summedPowers_concat, List.getElem?_zipWith] at h
    split at h
    · next p' q hp' hq =>
      cases h
      rw [List.getElem?_zipWith] at hq
      split at hq
      · next x y hx hy =>
        cases hq
        obtain ⟨pairs, hf, rfl⟩ := ih hp'
        exact ⟨pairs ++ [(x, y)], List.rel_append hf (.cons ⟨hx, hy⟩ .nil),
          (BinPowers.ofPairs_concat pairs x y).symm⟩
      · cases hq
    · cases h

omit [Zero α] [Neg α] in
/-- What holds of the blocks at a bin, holds of what they have there. -/
theorem eq_mul_of_forall₂ {k : Nat} {g : Cplx α} {blocks : List (List (Cplx α) × List (Cplx α))}
    {pairs : List (Cplx α × Cplx α)}
    (hf : List.Forall₂ (fun b q => b.1[k]? = some q.1 ∧ b.2[k]? = some q.2) blocks pairs)
    (h : ∀ b ∈ blocks, b.2[k]? = b.1[k]?.map (g * ·)) : ∀ q ∈ pairs, q.2 = g * q.1 := by
  induction hf with
  | nil => exact List.forall_mem_nil _
  | cons hb _ ih =>
    obtain ⟨hhead, htail⟩ := List.forall_mem_cons.1 h
    rw [hb.1, hb.2] at hhead
    exact List.forall_mem_cons.2 ⟨Option.some.inj hhead, ih htail⟩

end Sums

/-! ## The blocks of two signals -/

/-- The greatest power of two up to a number is not greater than the number. -/
theorem maxPowerOfTwo_le (n : Nat) : maxPowerOfTwo n ≤ n := by
  rw [maxPowerOfTwo]
  split
  · exact Nat.zero_le n
  · next h => exact Nat.log2_self_le h

section Signals

variable {α : Type} [Zero α] [One α] [Neg α] [Add α] [Sub α] [Mul α] [Div α] [NatCast α]
  [OfScientific α] [LT α] [DecidableLT α] [Elementary α]

/-- A response has a bin for every positive frequency of its blocks. -/
theorem length_responseBins (block : List α) (window : Window) :
    (responseBins block window).length = block.length / 2 - 1 := by
  show (Spectrum.singleSided _ false).size = _
  rw [Spectrum.size_singleSided, Spectrum.size_ofBlock]
  rfl

variable [Max α] [LE α] [DecidableLE α] (input output : Series α) (count : Nat) (window : Window)

/-- The size of the blocks of two signals: the greatest power of two at which a count of them fits.
-/
def responseSize : Nat := maxPowerOfTwo ((input.align output).1.size / count)

/-- The bins of the pairs of blocks of two signals. -/
def responseBlocks : List (List (Cplx α) × List (Cplx α)) :=
  let size := responseSize input output count
  (List.range count).map fun k =>
    (responseBins (Series.blockAt (input.align output).1.ys (k * size) size) window,
      responseBins (Series.blockAt (input.align output).2.ys (k * size) size) window)

/-- The blocks lie in both signals, so they have all bins. -/
theorem length_of_mem_responseBlocks {b : List (Cplx α) × List (Cplx α)}
    (h : b ∈ responseBlocks input output count window) :
    b.1.length = responseSize input output count / 2 - 1 ∧
      b.2.length = responseSize input output count / 2 - 1 := by
  obtain ⟨k, hk, rfl⟩ := List.mem_map.1 h
  rw [List.mem_range] at hk
  have hsize : (k + 1) * responseSize input output count ≤ (input.align output).1.size :=
    calc (k + 1) * responseSize input output count
        ≤ count * ((input.align output).1.size / count) :=
          Nat.mul_le_mul hk (maxPowerOfTwo_le _)
      _ ≤ (input.align output).1.size := Nat.mul_div_le _ _
  rw [Nat.add_mul, Nat.one_mul] at hsize
  have hxs := congrArg List.length (Series.xs_align input output)
  rw [Series.length_xs, Series.length_xs] at hxs
  simp only [length_responseBins]
  rw [Series.length_blockAt (by rwa [Series.length_ys]),
    Series.length_blockAt (by rwa [Series.length_ys, ← hxs])]
  exact ⟨rfl, rfl⟩

variable [BEq α] {input output count window}

namespace CrossSpectrum

/-- The sums over two signals are those over their blocks, with the checks in their order. -/
theorem ofSignals_eq (input output : Series α) (count : Nat) (window : Window) :
    ofSignals input output count window =
      if count = 0 then .error (.invalidParameter .noAverages)
      else (input.align output).1.period >>= fun dt =>
        if responseSize input output count < minBlock then
          .error (.insufficientData (.averages (input.align output).1.size count))
        else .ok ⟨1.0 / ((responseSize input output count : α) * dt),
          summedPowers (responseSize input output count / 2 - 1)
            (responseBlocks input output count window)⟩ := by
  simp only [ofSignals, throw_eq_error, pure_eq_ok, error_bind, summedPowers, responseBlocks,
    List.foldl_map, blockPowers, responseSize]

/-- Powers are summed if there is a block at all, if the blocks are long enough and if the common
samples have a period. -/
theorem ofSignals_eq_ok_iff {s : CrossSpectrum α} :
    ofSignals input output count window = .ok s ↔
      count ≠ 0 ∧ minBlock ≤ responseSize input output count ∧
        ∃ dt, (input.align output).1.period = .ok dt ∧
          s = ⟨1.0 / ((responseSize input output count : α) * dt),
            summedPowers (responseSize input output count / 2 - 1)
              (responseBlocks input output count window)⟩ := by
  simp only [ofSignals_eq, bind_eq_ok_iff, ite_error_eq_ok_iff, Except.ok.injEq, Nat.not_lt,
    eq_comm (b := s)]
  constructor
  · rintro ⟨h0, dt, hdt, hsize, hs⟩
    exact ⟨h0, hsize, dt, hdt, hs⟩
  · rintro ⟨h0, hsize, dt, hdt, hs⟩
    exact ⟨h0, dt, hdt, hsize, hs⟩

end CrossSpectrum

end Signals

/-! ## The coherence -/

section Coherence

variable {α : Type} [Field α] [LinearOrder α] [IsStrictOrderedRing α] [Elementary α]

/-- **Coherence is a share.** Let blocks of two signals have any bins. At every bin the cross power
is within the bound of the powers, so the coherence is the quotient as it is, from zero to one,
where both signals have power, and zero elsewhere. For one block it is one where both have power.
If the output is in all blocks one multiple of the input, which has power, the response is this
multiple and the coherence is one. The coherence and the response of two signals are those of their
blocks, which have all bins. -/
theorem coherence_is_share :
    (∀ (bins : Nat) (blocks : List (List (Cplx α) × List (Cplx α))),
      ((∀ b ∈ blocks, b.1.length = bins ∧ b.2.length = bins) →
        (summedPowers bins blocks).length = bins) ∧
      ∀ (k : Nat) (p : BinPowers α), (summedPowers bins blocks)[k]? = some p →
        let share := p.cross.normSq / (p.input * p.output)
        p.cross.normSq ≤ p.input * p.output ∧ 0 ≤ share ∧ share ≤ 1 ∧ clampUnit share = share ∧
        p.coherence = (if 0 < p.input * p.output then share else 0) ∧
        (blocks.length = 1 → p.coherence = if 0 < p.input * p.output then 1 else 0) ∧
        ∀ g : Cplx α, g ≠ 0 → (∀ b ∈ blocks, b.2[k]? = b.1[k]?.map (g * ·)) → 0 < p.input →
          p.response = g ∧ p.coherence = 1) ∧
    ∀ (input output : Series α) (count : Nat) (window : Window),
      let bins := responseSize input output count / 2 - 1
      let blocks := responseBlocks input output count window
      blocks.length = count ∧ (∀ b ∈ blocks, b.1.length = bins ∧ b.2.length = bins) ∧
      (∀ c, coherence input output count window = .ok c →
        c.ys = (summedPowers bins blocks).map BinPowers.coherence) ∧
      ∀ wrapped r, frequencyResponse input output count window wrapped = .ok r →
        r.coherence.ys = (summedPowers bins blocks).map BinPowers.coherence ∧
        r.amplitude.ys = (summedPowers bins blocks).map fun p =>
          20.0 * Elementary.log10 p.response.norm := by
  refine ⟨fun bins blocks => ⟨length_summedPowers, fun k p hp => ?_⟩,
    fun input output count window => ⟨?_, fun b => length_of_mem_responseBlocks _ _ _ _,
      fun c hc => ?_, fun wrapped r hr => ?_⟩⟩
  · obtain ⟨pairs, hf, rfl⟩ := getElem?_summedPowers hp
    have hb := BinPowers.isBounded_ofPairs pairs
    refine ⟨hb.cross_le, hb.share_le_one.1, hb.share_le_one.2, hb.clampUnit_share,
      hb.coherence_eq, fun h1 => ?_, fun g hg hy hx => ?_⟩
    · obtain ⟨b, rfl⟩ := List.length_eq_one_iff.1 (hf.length_eq.symm.trans h1)
      rw [BinPowers.ofPairs_singleton]
      exact BinPowers.coherence_of b.1 b.2
    · exact BinPowers.response_of_eq_mul hg (eq_mul_of_forall₂ hf hy) hx
  · rw [responseBlocks, List.length_map, List.length_range]
  · obtain ⟨s, hs, hc⟩ := bind_eq_ok_iff.1 hc
    obtain ⟨-, -, dt, -, rfl⟩ := CrossSpectrum.ofSignals_eq_ok_iff.1 hs
    cases hc
    exact CrossSpectrum.ys_series _ _
  · obtain ⟨s, hs, hr⟩ := bind_eq_ok_iff.1 hr
    obtain ⟨-, -, dt, -, rfl⟩ := CrossSpectrum.ofSignals_eq_ok_iff.1 hs
    cases hr
    refine ⟨CrossSpectrum.ys_series _ _, (CrossSpectrum.ys_series _ _).trans ?_⟩
    rw [List.map_map]
    rfl

end Coherence

/-- In two blocks the output is `2 i` times the input, in bins of different powers. -/
theorem coherence_is_share_multiple :
    let blocks : List (List (Cplx ℝ) × List (Cplx ℝ)) :=
      [([⟨1, 2⟩], [⟨-4, 2⟩]), ([⟨0, -3⟩], [⟨6, 0⟩])]
    (summedPowers 1 blocks).length = 1 ∧
      ∃ p, (summedPowers 1 blocks)[0]? = some p ∧ p.input = 14 ∧ p.response = ⟨0, 2⟩ ∧
        p.coherence = 1 := by
  intro blocks
  obtain ⟨hlength, hbin⟩ := (coherence_is_share (α := ℝ)).1 1 blocks
  have hl : ∀ b ∈ blocks, b.1.length = 1 ∧ b.2.length = 1 := by simp [blocks]
  obtain ⟨p, hp, hx⟩ : ∃ p, (summedPowers 1 blocks)[0]? = some p ∧ p.input = 14 := by
    refine ⟨_, rfl, ?_⟩
    simp only [BinPowers.add_input, BinPowers.zero_input, BinPowers.of, Cplx.normSq]
    norm_num
  have hy : ∀ b ∈ blocks, b.2[0]? = b.1[0]?.map ((⟨0, 2⟩ : Cplx ℝ) * ·) := by
    simp only [blocks, List.forall_mem_cons, List.getElem?_cons_zero, Option.map_some,
      Option.some.injEq, Cplx.ext_iff, Cplx.mul_re, Cplx.mul_im]
    norm_num
  have hg : (⟨0, 2⟩ : Cplx ℝ) ≠ 0 := fun h => two_ne_zero (congrArg Cplx.im h)
  obtain ⟨-, -, -, -, -, -, hmultiple⟩ := hbin 0 p hp
  obtain ⟨hr, hc⟩ := hmultiple ⟨0, 2⟩ hg hy (by rw [hx]; norm_num)
  exact ⟨hlength hl, p, hp, hx, hr, hc⟩

end SignalCalc
