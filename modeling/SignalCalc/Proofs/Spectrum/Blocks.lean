import SignalCalc.Proofs.Outcome
import SignalCalc.Spectrum.Amplitude

/-!
# Blocks of a history

The blocks of an averaged spectrum start a step apart, and the step is the block less what it shares
with the next one. As a block never shares all of its samples (`overlapSamples_lt`), whatever the
overlap is, the steps go forward, the blocks lie in the history, and it has no room for one more
(`fills_blockCount`).

Main statement: `blocks_fill_history`.
-/

namespace SignalCalc

/-- Blocks of a size, a step apart, that lie in a count of samples and leave no room for one more.
-/
structure Fills (samples size step count : Nat) : Prop where
  step_pos : 0 < step
  count_pos : 0 < count
  inside : ∀ k < count, k * step + size ≤ samples
  full : samples < count * step + size

/-- As many steps as fit behind the first block, and the first block itself. -/
theorem fills_div {samples size shared : Nat} (hs : shared < size) (h : size ≤ samples) :
    Fills samples size (size - shared) ((samples - shared) / (size - shared)) := by
  have hstep : 0 < size - shared := by omega
  have hcount : 0 < (samples - shared) / (size - shared) :=
    Nat.div_pos (by omega) hstep
  have hle : (samples - shared) / (size - shared) * (size - shared) ≤ samples - shared :=
    Nat.div_mul_le_self _ _
  have hlt : samples - shared < (samples - shared) / (size - shared) * (size - shared) +
      (size - shared) := Nat.lt_div_mul_add hstep
  refine ⟨hstep, hcount, fun k hk => ?_, by omega⟩
  have hk : (k + 1) * (size - shared) ≤ (samples - shared) / (size - shared) * (size - shared) :=
    Nat.mul_le_mul_right _ hk
  rw [Nat.add_mul, Nat.one_mul] at hk
  omega

section Count

variable {α : Type} [Zero α] [One α] [Mul α] [NatCast α] [LT α] [DecidableLT α] [Elementary α]

/-- A block does not share all of its samples. -/
theorem overlapSamples_lt {size : Nat} (h : 0 < size) (overlap : α) :
    overlapSamples size overlap < size :=
  Nat.lt_of_le_of_lt (Nat.min_le_right _ _) (Nat.sub_lt h Nat.one_pos)

/-- The number of blocks that fit, a step apart. -/
theorem blockCount_of_le {size samples : Nat} (h : 0 < size) (hs : size ≤ samples) (overlap : α) :
    blockCount size overlap samples =
      (samples - overlapSamples size overlap) / (size - overlapSamples size overlap) :=
  if_neg (by omega)

/-- The blocks that are counted fill the history. -/
theorem fills_blockCount {size samples : Nat} (h : 0 < size) (hs : size ≤ samples) (overlap : α) :
    Fills samples size (size - overlapSamples size overlap) (blockCount size overlap samples) := by
  rw [blockCount_of_le h hs]
  exact fills_div (overlapSamples_lt h overlap) hs

/-- There is no block if it has no samples or more than there are. -/
theorem blockCount_eq_zero_iff {size samples : Nat} {overlap : α} :
    blockCount size overlap samples = 0 ↔ size = 0 ∨ samples < size := by
  refine ⟨fun h => ?_, fun h => if_pos h⟩
  rcases Nat.eq_zero_or_pos size with hz | hpos
  · exact .inl hz
  rcases Nat.lt_or_ge samples size with hlt | hle
  · exact .inr hlt
  · exact absurd h (Nat.ne_of_gt (fills_blockCount hpos hle overlap).count_pos)

end Count

/-! ## Refused spectra -/

section Errors

variable {α : Type} [Zero α] [BEq α] {s : Series α} {options : SpectrumOptions α} {e : Error α}

/-- A spectrum cannot be computed: the history is too short, or a setting is out of bounds. -/
def IsSpectrumError (e : Error α) : Prop :=
  (∃ cause, e = .insufficientData cause) ∨ ∃ cause, e = .invalidParameter cause

/-- The columns of a spectrum do not differ in length. -/
theorem IsSpectrumError.ne_lengthMismatch (h : IsSpectrumError e) (m n : Nat) :
    e ≠ .lengthMismatch m n := by
  rintro rfl
  rcases h with ⟨cause, h⟩ | ⟨cause, h⟩ <;> cases h

/-- A period that cannot be found is an error of the spectrum. -/
theorem Series.isSpectrumError_of_period [Sub α] [Div α] [NatCast α] [LT α] [DecidableLT α]
    (h : s.period = .error e) : IsSpectrumError e := by
  unfold period at h
  split at h
  · cases h
    exact .inl ⟨_, rfl⟩
  · unfold checkSpacing at h
    split at h <;> cases h
    exact .inr ⟨_, rfl⟩

/-- A block that does not fit is an error of the spectrum. -/
theorem Series.isSpectrumError_of_blockSize (h : s.blockSize options = .error e) :
    IsSpectrumError e := by
  have hcheck : ∀ n (cause : BadParameter α),
      (if n < minBlock ∨ s.size < n then Except.error (.invalidParameter cause) else .ok n) =
        Except.error e → IsSpectrumError e := by
    intro n cause hn
    rcases ite_error_eq_error_iff.1 hn with ⟨-, rfl⟩ | ⟨-, ⟨⟩⟩
    exact .inr ⟨_, rfl⟩
  rw [blockSize] at h
  split at h
  · exact hcheck _ _ h
  · rcases ite_error_eq_error_iff.1 h with ⟨-, rfl⟩ | ⟨-, h⟩
    · exact .inl ⟨_, rfl⟩
    · exact hcheck _ _ h

variable [One α] [Neg α] [Add α] [Sub α] [Mul α] [Div α] [NatCast α] [OfScientific α]
  [LT α] [DecidableLT α] [LE α] [DecidableLE α] [Elementary α]

/-- An amplitude spectrum fails for one of its checks. -/
theorem Series.isSpectrumError_of_amplitudeSpectrum (h : s.amplitudeSpectrum options = .error e) :
    IsSpectrumError e := by
  rcases bind_eq_error_iff.1 h with h | ⟨dt, -, h⟩
  · exact isSpectrumError_of_period h
  rcases bind_eq_error_iff.1 h with h | ⟨size, -, h⟩
  · exact isSpectrumError_of_blockSize h
  rcases ite_error_eq_error_iff.1 h with ⟨-, rfl⟩ | ⟨-, h⟩
  · exact .inr ⟨_, rfl⟩
  rcases ite_error_eq_error_iff.1 h with ⟨-, rfl⟩ | ⟨-, ⟨⟩⟩
  exact .inr ⟨_, rfl⟩

end Errors

namespace Series

section Blocks

variable {α : Type}

/-- A block inside a history is full. -/
theorem length_blockAt {ys : List α} {start size : Nat} (h : start + size ≤ ys.length) :
    (blockAt ys start size).length = size := by
  rw [blockAt, List.length_take, List.length_drop]
  omega

/-- The samples of a block are those of the history from the start of the block on. -/
theorem getElem?_blockAt {ys : List α} {start size i : Nat} (h : i < size) :
    (blockAt ys start size)[i]? = ys[start + i]? := by
  rw [blockAt, List.getElem?_take_of_lt h, List.getElem?_drop]

variable [Zero α] [One α] [Mul α] [NatCast α] [LT α] [DecidableLT α] [Elementary α]

/-- The blocks of a history, in their order. -/
def blocks (s : Series α) (options : SpectrumOptions α) (size : Nat) : List (List α) :=
  (List.range (blockCount size options.overlap s.size)).map fun k =>
    blockAt s.ys (k * (size - overlapSamples size options.overlap)) size

/-- The blocks are full, and their samples are those from a whole number of steps on. -/
theorem getElem?_blocks {s : Series α} {options : SpectrumOptions α} {size k : Nat}
    {block : List α} (h : 0 < size) (hs : size ≤ s.size)
    (hb : (s.blocks options size)[k]? = some block) :
    block.length = size ∧
      ∀ i < size, block[i]? = s.ys[k * (size - overlapSamples size options.overlap) + i]? := by
  rw [blocks, List.getElem?_map, Option.map_eq_some_iff] at hb
  obtain ⟨k', hk, rfl⟩ := hb
  simp only [List.getElem?_eq_some_iff, List.length_range, List.getElem_range,
    exists_prop] at hk
  obtain ⟨hk, rfl⟩ := hk
  have hi := (fills_blockCount h hs options.overlap).inside k hk
  exact ⟨length_blockAt (by rwa [length_ys]), fun i hi => getElem?_blockAt hi⟩

end Blocks

section Size

variable {α : Type} [Zero α] [BEq α] {s : Series α} {options : SpectrumOptions α}

/-- A block has a least size and is not longer than the history. -/
theorem le_of_blockSize {size : Nat} (h : s.blockSize options = .ok size) :
    minBlock ≤ size ∧ size ≤ s.size := by
  have hcheck : ∀ n (e : Error α),
      (if n < minBlock ∨ s.size < n then Except.error e else .ok n) = .ok size →
        minBlock ≤ size ∧ size ≤ s.size := by
    intro n e hn
    obtain ⟨hn, ⟨⟩⟩ := ite_error_eq_ok_iff.1 hn
    omega
  rw [blockSize] at h
  split at h
  · exact hcheck _ _ h
  · exact hcheck _ _ (ite_error_eq_ok_iff.1 h).2

end Size

section Amplitudes

variable {α : Type} [Zero α] [One α] [Neg α] [Add α] [Sub α] [Mul α] [Div α] [NatCast α]
  [OfScientific α] [LT α] [DecidableLT α] [LE α] [DecidableLE α] [BEq α] [Elementary α]
  {s : Series α} {options : SpectrumOptions α}

/-- The sums over blocks of the amplitudes that they have at a bin. -/
def summedAmplitudes (blocks : List (List α)) (options : SpectrumOptions α) (size : Nat) :
    List α :=
  blocks.foldl (fun sums block =>
    List.zipWith (· + ·) sums (amplitudes block options.window options.subtractMean))
    (List.replicate (size / 2) 0)

/-- A spectrum is made if the checks pass, and it is the average over the blocks. -/
theorem amplitudeSpectrum_eq_ok_iff {spectrum : Series α} :
    s.amplitudeSpectrum options = .ok spectrum ↔
      ∃ dt size, s.period = .ok dt ∧ s.blockSize options = .ok size ∧
        ¬options.window.coherentGain size ≤ (0 : α) ∧ 0 ≤ options.overlap ∧ options.overlap < 1 ∧
        spectrum = ⟨(summedAmplitudes (s.blocks options size) options size).zipIdx.map
          fun (sum, k) => ⟨(k : α) * (1.0 / ((size : α) * dt)),
            sum / (blockCount size options.overlap s.size : α)⟩⟩ := by
  simp only [amplitudeSpectrum, bind_eq_ok_iff, throw_eq_error, error_bind, pure_eq_ok,
    ite_error_eq_ok_iff, exists_and_left, Except.ok.injEq, Bool.not_eq_true', Bool.not_eq_false,
    Bool.and_eq_true, decide_eq_true_eq, and_assoc, summedAmplitudes, blocks, List.foldl_map,
    eq_comm (b := spectrum)]

/-- **Blocks fill the history.** Whatever number the overlap is, the count of blocks is zero just
where there is no block that fits. Elsewhere a block shares less than all of its samples with the
next one, so no difference is negative and no divisor is zero, and the blocks that are counted fill
the samples. If the checks of a spectrum pass, it is made, and its blocks are full: each has the
samples of the history from its start on. -/
theorem blocks_fill_history :
    (∀ (size samples : Nat) (overlap : α),
      (blockCount size overlap samples = 0 ↔ size = 0 ∨ samples < size) ∧
      (0 < size → size ≤ samples →
        let shared := overlapSamples size overlap
        shared < size ∧ shared ≤ samples ∧
          Fills samples size (size - shared) (blockCount size overlap samples))) ∧
    ∀ (s : Series α) (options : SpectrumOptions α) (dt : α) (size : Nat),
      s.period = .ok dt → s.blockSize options = .ok size →
      ¬options.window.coherentGain size ≤ (0 : α) → 0 ≤ options.overlap → options.overlap < 1 →
      let step := size - overlapSamples size options.overlap
      let count := blockCount size options.overlap s.size
      (∃ spectrum, s.amplitudeSpectrum options = .ok spectrum ∧
        spectrum.ys =
          (summedAmplitudes (s.blocks options size) options size).map (· / (count : α))) ∧
      Fills s.size size step count ∧ (s.blocks options size).length = count ∧
      ∀ k block, (s.blocks options size)[k]? = some block →
        block.length = size ∧ ∀ i < size, block[i]? = s.ys[k * step + i]? := by
  refine ⟨fun size samples overlap => ⟨blockCount_eq_zero_iff, fun h hs => ?_⟩,
    fun s options dt size hdt hsize hgain h0 h1 => ?_⟩
  · have hlt := overlapSamples_lt h overlap
    exact ⟨hlt, Nat.le_trans (Nat.le_of_lt hlt) hs, fills_blockCount h hs overlap⟩
  · obtain ⟨hmin, hle⟩ := le_of_blockSize hsize
    have hpos : 0 < size := Nat.lt_of_lt_of_le (by decide) hmin
    refine ⟨⟨_, amplitudeSpectrum_eq_ok_iff.2 ⟨dt, size, hdt, hsize, hgain, h0, h1, rfl⟩, ?_⟩,
      fills_blockCount hpos hle options.overlap, ?_, fun k block hb => getElem?_blocks hpos hle hb⟩
    · rw [ys, List.map_map]
      show List.map ((· / _) ∘ Prod.fst) _ = _
      rw [← List.map_map, List.zipIdx_map_fst]
    · rw [blocks, List.length_map, List.length_range]

end Amplitudes

/-- Nine tenths of four samples round to all of them, and three are shared. An undefined overlap
shares none, and the second block does not fit. -/
theorem blocks_fill_history_rounded_up :
    let s : Series Float := ⟨[⟨0, 1⟩, ⟨1, 3⟩, ⟨2, 2⟩, ⟨3, 0⟩, ⟨4, 1⟩, ⟨5, 5⟩]⟩
    let options : SpectrumOptions Float := ⟨.uniform, some 4, 0.9, true⟩
    s.period = .ok 1 ∧ s.blockSize options = .ok 4 ∧ options.window.coherentGain 4 = (1 : Float) ∧
      (∃ spectrum, s.amplitudeSpectrum options = .ok spectrum) ∧ Fills 6 4 1 3 ∧
      (s.blocks options 4)[2]? = some [2, 0, 1, 5] ∧
      overlapSamples 4 (0 / 0 : Float) = 0 ∧ Fills 6 4 4 1 := by
  intro s options
  have hp : s.period = .ok 1 := by
    have hdt : (5 - 0 : Float) / ((5 : Nat) : Float) = 1 := by decide +kernel
    show checkSpacing ((5 - 0 : Float) / ((5 : Nat) : Float)) = .ok 1
    rw [hdt]
    exact if_pos (by decide +kernel)
  have hs : s.blockSize options = .ok 4 := by rfl
  have hg : options.window.coherentGain 4 = (1 : Float) := by decide +kernel
  obtain ⟨hcount, hspectrum⟩ := blocks_fill_history (α := Float)
  obtain ⟨⟨spectrum, h, -⟩, hfill, -, -⟩ := hspectrum s options 1 4 hp hs
    (by rw [hg]; decide) (by decide +kernel) (by decide +kernel)
  have hshared : overlapSamples 4 options.overlap = 3 := by decide +kernel
  have hthree : blockCount 4 options.overlap s.size = 3 := by decide +kernel
  rw [hshared, hthree] at hfill
  have hnone : overlapSamples 4 (0 / 0 : Float) = 0 := by decide +kernel
  have hone : blockCount 4 (0 / 0 : Float) 6 = 1 := by decide +kernel
  have hn := ((hcount 4 6 (0 / 0)).2 (by decide) (by decide)).2.2
  rw [hnone, hone] at hn
  exact ⟨hp, hs, hg, ⟨spectrum, h⟩, hfill, by decide +kernel, hnone, hn⟩

end Series

end SignalCalc
