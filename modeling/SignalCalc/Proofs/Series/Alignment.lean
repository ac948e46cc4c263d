import Mathlib.Tactic.Linarith
import SignalCalc.Proofs.Exact
import SignalCalc.Series.Align

/-!
# Alignment as a longest matching

What two series have in common is a *matching*: pairs of indices, ascending in both components, at
positions that match. The walk over both series finds one (`isMatching_commonIndices`), whatever the
positions are. In exact arithmetic and on ascending positions no matching is longer
(`IsMatching.length_le`). Two facts carry this. A position between two that match, matches both
(`xMatches_of_between`), so a sample that is passed over has no partner left. And of a matching only
the first pair can use one of two first samples, so taking both as a pair costs nothing.

Main statement: `align_is_longest_matching`.
-/

namespace SignalCalc

/-! ## Matching positions in exact arithmetic -/

section Exact

variable {α : Type} [Field α] [LinearOrder α] [FloorRing α] [Elementary α] [ExactElementary α]

/-- Positions match within the tolerance, relative to the greatest of the magnitudes and one. -/
theorem xMatches_iff {a b : α} :
    xMatches a b = true ↔ |a - b| ≤ matchTolerance * max (max |a| |b|) 1 := by
  simp only [xMatches, ExactElementary.abs_eq, decide_eq_true_eq]

/-- Matching is symmetric. -/
theorem xMatches_comm {a b : α} : xMatches a b = true ↔ xMatches b a = true := by
  rw [xMatches_iff, xMatches_iff, abs_sub_comm, max_comm |a|]

/-- Matching is the same on both sides of zero. -/
theorem xMatches_neg {a b : α} : xMatches (-a) (-b) = true ↔ xMatches a b = true := by
  rw [xMatches_iff, xMatches_iff, abs_neg, abs_neg, ← abs_neg (a - b), neg_sub, neg_sub_neg]

variable [IsStrictOrderedRing α]

/-- Every position matches itself. -/
theorem xMatches_refl (a : α) : xMatches a a = true := by
  rw [xMatches_iff, sub_self, abs_zero, matchTolerance]
  positivity

/-- A position that is not above one that matches, matches too: the tolerance grows with the
position, but by less than the distance. -/
theorem xMatches_of_le {a b c : α} (hab : a ≤ b) (hbc : b ≤ c) (h : xMatches a c = true) :
    xMatches a b = true := by
  have ht₀ : (0 : α) ≤ matchTolerance := by norm_num [matchTolerance]
  have ht₁ : (matchTolerance : α) ≤ 1 := by norm_num [matchTolerance]
  rw [xMatches_iff, abs_sub_comm, abs_of_nonneg (by linarith)] at h ⊢
  have hmono : ∀ m, m ≤ max (max |a| |b|) 1 → c - a ≤ matchTolerance * m →
      b - a ≤ matchTolerance * max (max |a| |b|) 1 := fun m hm hc =>
    (sub_le_sub_right hbc a).trans (hc.trans (mul_le_mul_of_nonneg_left hm ht₀))
  rcases max_choice (max |a| |c|) 1 with hm | hm <;> rw [hm] at h
  · rcases max_choice |a| |c| with hm | hm <;> rw [hm] at h
    · exact hmono _ ((le_max_left _ _).trans (le_max_left _ _)) h
    · rcases le_total 0 c with hc | hc
      · -- From `(1 - t) c ≤ a` follows `(1 - t) b ≤ a`.
        rw [abs_of_nonneg hc] at h
        have hb : (1 - matchTolerance) * b ≤ (1 - matchTolerance) * c :=
          mul_le_mul_of_nonneg_left hbc (by linarith)
        have hb : b - a ≤ matchTolerance * b := by linarith
        exact hb.trans (mul_le_mul_of_nonneg_left
          ((le_abs_self b).trans ((le_max_right _ _).trans (le_max_left _ _))) ht₀)
      · rw [abs_of_nonpos hc] at h
        have ha : |a| = -a := abs_of_nonpos (hab.trans (hbc.trans hc))
        exact hmono (-c) ((le_max_left _ _).trans (le_max_left _ _) |>.trans' (by linarith)) h
  · exact hmono _ (le_max_right _ _) h

/-- A position between two that match, matches both. -/
theorem xMatches_of_between {a b c : α} (hab : a ≤ b) (hbc : b ≤ c) (h : xMatches a c = true) :
    xMatches a b = true ∧ xMatches b c = true := by
  refine ⟨xMatches_of_le hab hbc h, ?_⟩
  rw [xMatches_comm, ← xMatches_neg]
  exact xMatches_of_le (neg_le_neg hbc) (neg_le_neg hab)
    (xMatches_neg.2 (xMatches_comm.1 h))

end Exact

/-! ## Matchings -/

namespace Series

section Matching

variable {α : Type} [One α] [Sub α] [Mul α] [OfScientific α] [Max α] [LE α] [DecidableLE α]
  [Elementary α]

/-- Pairs of indices that ascend in both components and stand at matching positions. -/
structure IsMatching (as bs : List (Sample α)) (pairs : List (Nat × Nat)) : Prop where
  ascending : pairs.Pairwise fun p q => p.1 < q.1 ∧ p.2 < q.2
  matching : ∀ p ∈ pairs, ∃ a b, as[p.1]? = some a ∧ bs[p.2]? = some b ∧ xMatches a.x b.x = true

namespace IsMatching

variable {as bs : List (Sample α)} {pairs : List (Nat × Nat)}

/-- A matching that leaves out the first samples is one of the others. -/
theorem drop (h : IsMatching as bs pairs) {m n : Nat} (hp : ∀ p ∈ pairs, m ≤ p.1 ∧ n ≤ p.2) :
    IsMatching (as.drop m) (bs.drop n) (pairs.map fun p => (p.1 - m, p.2 - n)) := by
  constructor
  · rw [List.pairwise_map]
    refine h.ascending.imp_of_mem fun {p q} hpm _ hlt => ?_
    have := hp p hpm
    omega
  · intro q hq
    obtain ⟨p, hpm, rfl⟩ := List.mem_map.1 hq
    obtain ⟨a, b, ha, hb, hm⟩ := h.matching p hpm
    refine ⟨a, b, ?_, ?_, hm⟩
    · rw [List.getElem?_drop, Nat.add_sub_cancel' (hp p hpm).1, ha]
    · rw [List.getElem?_drop, Nat.add_sub_cancel' (hp p hpm).2, hb]

/-- The rest of a matching is a matching. -/
theorem of_cons {p : Nat × Nat} (h : IsMatching as bs (p :: pairs)) : IsMatching as bs pairs :=
  ⟨(List.pairwise_cons.1 h.ascending).2, fun q hq => h.matching q (List.mem_cons_of_mem _ hq)⟩

end IsMatching

variable [LT α] [DecidableLT α]

/-- An index pair, counted from earlier samples. -/
def shift (m n : Nat) (p : Nat × Nat) : Nat × Nat := (p.1 + m, p.2 + n)

/-- The indices of the samples that two series have in common. -/
def commonIndices : List (Sample α) → List (Sample α) → List (Nat × Nat)
  | a :: as, b :: bs =>
    if xMatches a.x b.x then (0, 0) :: (commonIndices as bs).map (shift 1 1)
    else if a.x < b.x then (commonIndices as (b :: bs)).map (shift 1 0)
    else (commonIndices (a :: as) bs).map (shift 0 1)
  | _, _ => []
termination_by as bs => as.length + bs.length

/-- The common samples are those at the common indices. -/
theorem forall₂_commonIndices (as bs : List (Sample α)) :
    List.Forall₂ (fun p c => as[p.1]? = some c.1 ∧ bs[p.2]? = some c.2 ∧
      xMatches c.1.x c.2.x = true) (commonIndices as bs) (commonSamples as bs) := by
  fun_induction commonSamples as bs with
  | case1 a as b bs hm ih =>
    rw [commonIndices, if_pos hm]
    exact .cons ⟨rfl, rfl, hm⟩ (List.forall₂_map_left_iff.2 ih)
  | case2 a as b bs hm hlt ih =>
    rw [commonIndices, if_neg hm, if_pos hlt]
    exact List.forall₂_map_left_iff.2 ih
  | case3 a as b bs hm hlt ih =>
    rw [commonIndices, if_neg hm, if_neg hlt]
    exact List.forall₂_map_left_iff.2 ih
  | case4 as bs h =>
    rw [commonIndices.eq_2 as bs h]
    exact .nil

/-- A shift keeps the order of index pairs. -/
theorem pairwise_shift {m n : Nat} {pairs : List (Nat × Nat)} :
    ((pairs.map (shift m n)).Pairwise fun p q => p.1 < q.1 ∧ p.2 < q.2) ↔
      pairs.Pairwise fun p q => p.1 < q.1 ∧ p.2 < q.2 := by
  simp only [List.pairwise_map, shift, Nat.add_lt_add_iff_right]

/-- The common indices ascend in both series. -/
theorem pairwise_commonIndices (as bs : List (Sample α)) :
    (commonIndices as bs).Pairwise fun p q => p.1 < q.1 ∧ p.2 < q.2 := by
  fun_induction commonIndices as bs with
  | case1 a as b bs hm ih =>
    refine List.pairwise_cons.2 ⟨fun p hp => ?_, pairwise_shift.2 ih⟩
    obtain ⟨q, -, rfl⟩ := List.mem_map.1 hp
    exact ⟨Nat.succ_pos _, Nat.succ_pos _⟩
  | case2 a as b bs hm hlt ih => exact pairwise_shift.2 ih
  | case3 a as b bs hm hlt ih => exact pairwise_shift.2 ih
  | case4 as bs h => exact .nil

/-- What the walk finds is a matching. -/
theorem isMatching_commonIndices (as bs : List (Sample α)) :
    IsMatching as bs (commonIndices as bs) := by
  refine ⟨pairwise_commonIndices as bs, fun p hp => ?_⟩
  obtain ⟨k, hk, rfl⟩ := List.getElem_of_mem hp
  have h := forall₂_commonIndices as bs
  obtain ⟨ha, hb, hm⟩ := List.forall₂_iff_get.1 h |>.2 k hk (h.length_eq ▸ hk)
  exact ⟨_, _, ha, hb, hm⟩

end Matching

section Longest

variable {α : Type} [Field α] [LinearOrder α] [FloorRing α] [Elementary α] [ExactElementary α]
  {as bs : List (Sample α)} {pairs : List (Nat × Nat)}

namespace IsMatching

/-- Matchings are those of the two series in the other order, with the components exchanged. -/
theorem swap (h : IsMatching as bs pairs) : IsMatching bs as (pairs.map Prod.swap) := by
  constructor
  · rw [List.pairwise_map]
    exact h.ascending.imp And.symm
  · intro q hq
    obtain ⟨p, hp, rfl⟩ := List.mem_map.1 hq
    obtain ⟨a, b, ha, hb, hm⟩ := h.matching p hp
    exact ⟨b, a, hb, ha, xMatches_comm.1 hm⟩

variable [IsStrictOrderedRing α]

/-- A first sample that is not above the first one of the other series and does not match it has no
partner. -/
theorem fst_pos {a b : Sample α} (h : IsMatching (a :: as) (b :: bs) pairs)
    (hb : (b :: bs).Pairwise fun p q => p.x ≤ q.x) (hm : ¬xMatches a.x b.x = true)
    (hab : a.x ≤ b.x) : ∀ p ∈ pairs, 1 ≤ p.1 := by
  rintro ⟨i, j⟩ hp
  obtain ⟨a', b', ha, hb', hm'⟩ := h.matching _ hp
  refine Nat.one_le_iff_ne_zero.2 ?_
  rintro rfl
  cases ha
  have hle : b.x ≤ b'.x := by
    rcases List.mem_cons.1 (List.mem_of_getElem? hb') with rfl | hmem
    · exact le_rfl
    · exact (List.pairwise_cons.1 hb).1 b' hmem
  exact hm (xMatches_of_between hab hle hm').1

/-- No matching of ascending series is longer than the one that the walk finds. The induction is
along the walk: a sample that it passes over is in no pair, and a pair that it takes stands for the
first pair of the matching, after which the two samples are not used again. -/
theorem length_le (h : IsMatching as bs pairs) (ha : as.Pairwise fun p q => p.x ≤ q.x)
    (hb : bs.Pairwise fun p q => p.x ≤ q.x) : pairs.length ≤ (commonSamples as bs).length := by
  fun_induction commonSamples as bs generalizing pairs with
  | case1 a as b bs hm ih =>
    cases pairs with
    | nil => exact Nat.zero_le _
    | cons p pairs =>
      have hp : ∀ q ∈ pairs, 1 ≤ q.1 ∧ 1 ≤ q.2 := fun q hq => by
        have := (List.pairwise_cons.1 h.ascending).1 q hq
        omega
      have hi := ih (h.of_cons.drop hp) (List.pairwise_cons.1 ha).2 (List.pairwise_cons.1 hb).2
      rw [List.length_map] at hi
      exact Nat.succ_le_succ hi
  | case2 a as b bs hm hlt ih =>
    have hp := h.fst_pos hb hm hlt.le
    have hi := ih (h.drop (m := 1) (n := 0) fun p hpm => ⟨hp p hpm, Nat.zero_le _⟩)
      (List.pairwise_cons.1 ha).2 hb
    rwa [List.length_map] at hi
  | case3 a as b bs hm hlt ih =>
    have hp := h.swap.fst_pos ha (fun hm' => hm (xMatches_comm.1 hm')) (not_lt.1 hlt)
    have hi := ih (h.drop (m := 0) (n := 1) fun p hpm =>
      ⟨Nat.zero_le _, hp _ (List.mem_map_of_mem hpm)⟩) ha (List.pairwise_cons.1 hb).2
    rwa [List.length_map] at hi
  | case4 as bs hnil =>
    cases pairs with
    | nil => exact Nat.zero_le _
    | cons p pairs =>
      obtain ⟨a, b, hpa, hpb, -⟩ := h.matching p List.mem_cons_self
      cases as with
      | nil => cases hpa
      | cons a as =>
        cases bs with
        | nil => cases hpb
        | cons b bs => exact (hnil a as b bs rfl rfl).elim

end IsMatching

end Longest

/-! ## Alignment -/

/-- **Alignment keeps a longest matching.** Whatever the positions are, the samples that two series
keep are those at the index pairs of a matching, in its order: the left series has the samples of
the first one, the right series has the values of the second one at the same positions. In exact
arithmetic, if the positions of both do not descend, no matching is longer. -/
theorem align_is_longest_matching {α β : Type}
    [One α] [Sub α] [Mul α] [OfScientific α] [Max α] [LT α] [DecidableLT α] [LE α] [DecidableLE α]
    [Elementary α]
    [Field β] [LinearOrder β] [IsStrictOrderedRing β] [FloorRing β] [Elementary β]
    [ExactElementary β] :
    (∀ s t : Series α,
      let pairs := commonIndices s.samples t.samples
      IsMatching s.samples t.samples pairs ∧
      (s.align t).1.size = pairs.length ∧ (s.align t).2.size = pairs.length ∧
      (s.align t).1.xs = (s.align t).2.xs ∧
      ∀ k i j : Nat, pairs[k]? = some (i, j) → ∃ a b,
        s.samples[i]? = some a ∧ t.samples[j]? = some b ∧
        (s.align t).1.samples[k]? = some a ∧ (s.align t).2.samples[k]? = some ⟨a.x, b.y⟩) ∧
    ∀ s t : Series β, s.xs.Pairwise (· ≤ ·) → t.xs.Pairwise (· ≤ ·) →
      ∀ pairs, IsMatching s.samples t.samples pairs → pairs.length ≤ (s.align t).1.size := by
  constructor
  · intro s t pairs
    have hf := forall₂_commonIndices s.samples t.samples
    have hl : pairs.length = (commonSamples s.samples t.samples).length := hf.length_eq
    refine ⟨isMatching_commonIndices _ _, ?_, ?_, xs_align s t, fun k i j hk => ?_⟩
    · rw [hl, align, size, List.length_map]
    · rw [hl, align, size, List.length_map]
    · obtain ⟨hlt, hk⟩ := List.getElem?_eq_some_iff.1 hk
      have hlt' : k < (commonSamples s.samples t.samples).length := hl ▸ hlt
      obtain ⟨ha, hb, -⟩ := List.forall₂_iff_get.1 hf |>.2 k hlt hlt'
      have hp : pairs.get ⟨k, hlt⟩ = (i, j) := hk
      rw [hp] at ha hb
      refine ⟨_, _, ha, hb, ?_, ?_⟩
      · simp only [align, List.getElem?_map, List.getElem?_eq_getElem hlt', Option.map_some,
          List.get_eq_getElem]
      · simp only [align, List.getElem?_map, List.getElem?_eq_getElem hlt', Option.map_some,
          List.get_eq_getElem]
  · intro s t hs ht pairs h
    have hl := h.length_le (List.pairwise_map.1 hs) (List.pairwise_map.1 ht)
    rwa [align, size, List.length_map]

/-- At a billion, positions one apart match. The positions `10 ^ 9 + 1` and `10 ^ 9 + 2` are in
both series, but each sample can be paired with the next position, too, and all three pairs are
kept. -/
theorem align_is_longest_matching_shifted :
    let s : Series ℝ := ⟨[⟨10 ^ 9, 1⟩, ⟨10 ^ 9 + 1, 2⟩, ⟨10 ^ 9 + 2, 3⟩]⟩
    let t : Series ℝ := ⟨[⟨10 ^ 9 + 1, 4⟩, ⟨10 ^ 9 + 2, 5⟩, ⟨10 ^ 9 + 3, 6⟩]⟩
    s.xs.Pairwise (· ≤ ·) ∧ t.xs.Pairwise (· ≤ ·) ∧
      IsMatching s.samples t.samples [(0, 0), (1, 1), (2, 2)] ∧ 3 ≤ (s.align t).1.size := by
  intro s t
  have hs : s.xs.Pairwise (· ≤ ·) := by norm_num [s, xs]
  have ht : t.xs.Pairwise (· ≤ ·) := by norm_num [t, xs]
  have hm : ∀ n : ℝ, 0 ≤ n → xMatches (10 ^ 9 + n) (10 ^ 9 + n + 1) = true := fun n hn => by
    rw [xMatches_iff, sub_add_cancel_left, abs_neg, abs_one]
    have hle : (10 ^ 9 : ℝ) ≤ max (max |10 ^ 9 + n| |10 ^ 9 + n + 1|) 1 :=
      (le_add_of_nonneg_right hn).trans
        ((le_abs_self _).trans ((le_max_left _ _).trans (le_max_left _ _)))
    have ht : (matchTolerance : ℝ) * 10 ^ 9 = 1 := by norm_num [matchTolerance]
    have ht₀ : (0 : ℝ) ≤ matchTolerance := by norm_num [matchTolerance]
    exact ht.symm.le.trans (mul_le_mul_of_nonneg_left hle ht₀)
  have h : IsMatching s.samples t.samples [(0, 0), (1, 1), (2, 2)] := by
    refine ⟨by simp, ?_⟩
    simp only [List.forall_mem_cons]
    refine ⟨⟨_, _, rfl, rfl, ?_⟩, ⟨_, _, rfl, rfl, ?_⟩, ⟨_, _, rfl, rfl, ?_⟩, List.forall_mem_nil _⟩
    · simpa using hm 0 le_rfl
    · convert hm 1 zero_le_one using 1
      norm_num
    · convert hm 2 zero_le_two using 1
      norm_num
  exact ⟨hs, ht, h, (align_is_longest_matching (α := ℝ)).2 s t hs ht _ h⟩

end Series

end SignalCalc
