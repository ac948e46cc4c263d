import SignalCalc.Expression.Operator
import SignalCalc.Proofs.Series.Alignment

/-!
# Adding a series and subtracting it again

A sum of two series keeps the positions of the first one, but not all of them, so that subtracting
the second one is another walk: over fewer positions on the left, over the same ones on the right.
If the positions on the left ascend, it takes the same samples of the second series as before
(`common_of_kept`). A sample on the right that was passed over stood below some position on the left
and did not match it; what is kept of the left series from there on lies above this position, so the
sample matches nothing there either (`xMatches_of_between`) and is passed over again.

Main statement: `subtract_undoes_add`.
-/

namespace SignalCalc

namespace Series

section Common

variable {α : Type} [One α] [Sub α] [Mul α] [OfScientific α] [Max α] [LT α] [DecidableLT α]
  [LE α] [DecidableLE α] [Elementary α]

/-- The samples of the first series that are kept are some of its samples, in their order. -/
theorem sublist_fst_commonSamples (as bs : List (Sample α)) :
    ((commonSamples as bs).map (·.1)).Sublist as := by
  fun_induction commonSamples as bs with
  | case1 a as b bs hm ih => exact ih.cons_cons a
  | case2 a as b bs hm hlt ih => exact ih.cons a
  | case3 a as b bs hm hlt ih => exact ih
  | case4 as bs h => exact List.nil_sublist as

@[simp] theorem commonIndices_nil_left (bs : List (Sample α)) : commonIndices [] bs = [] := by
  unfold commonIndices
  rfl

/-- Index pairs that are shifted are shifted in each component. -/
theorem map_shift_zip (m n : Nat) (ks : List Nat) (pairs : List (Nat × Nat)) :
    (ks.zip (pairs.map (·.2))).map (shift m n) =
      (ks.map (· + m)).zip ((pairs.map (shift m n)).map (·.2)) := by
  rw [List.map_map, List.zip_map_right, List.zip_map, List.map_map]
  rfl

/-- There is an index pair for every pair of samples. -/
theorem length_commonIndices (as bs : List (Sample α)) :
    (commonIndices as bs).length = (commonSamples as bs).length :=
  (forall₂_commonIndices as bs).length_eq

/-- The samples at a pair of common indices. -/
theorem getElem?_commonSamples {as bs : List (Sample α)} {k i j : Nat}
    (h : (commonIndices as bs)[k]? = some (i, j)) :
    ∃ a b, as[i]? = some a ∧ bs[j]? = some b ∧ (commonSamples as bs)[k]? = some (a, b) := by
  obtain ⟨hk, hp⟩ := List.getElem?_eq_some_iff.1 h
  have hf := forall₂_commonIndices as bs
  have hk' : k < (commonSamples as bs).length := hf.length_eq ▸ hk
  obtain ⟨ha, hb, -⟩ := (List.forall₂_iff_get.1 hf).2 k hk hk'
  rw [List.get_eq_getElem, hp] at ha hb
  exact ⟨_, _, ha, hb, List.getElem?_eq_getElem hk'⟩

/-- What is combined stands at the positions that are kept of the first series. -/
theorem xs_combine (s t : Series α) (f : α → α → α) :
    (s.combine t f).xs = (commonSamples s.samples t.samples).map (·.1.x) := by
  rw [combine, xs, List.map_map]
  rfl

end Common

/-! ## The second walk -/

section Exact

variable {α : Type} [Field α] [LinearOrder α] [Elementary α]

/-- What is kept of an ascending series does not lie below its first sample. -/
theorem le_of_kept {a : Sample α} {as bs : List (Sample α)}
    (ha : (a :: as).Pairwise fun p q => p.x ≤ q.x) {x : α}
    (hx : x ∈ (commonSamples (a :: as) bs).map (·.1.x)) : a.x ≤ x := by
  obtain ⟨⟨p, q⟩, hp, rfl⟩ := List.mem_map.1 hx
  have hmem : p ∈ a :: as :=
    (sublist_fst_commonSamples (a :: as) bs).subset (List.mem_map_of_mem hp)
  rcases List.mem_cons.1 hmem with rfl | hmem
  · exact le_rfl
  · exact (List.pairwise_cons.1 ha).1 p hmem

variable [IsStrictOrderedRing α] [FloorRing α] [ExactElementary α]

/-- Samples at the positions that are kept of an ascending series: the walk takes every one of them,
each with the sample that was taken before. The induction is along the walk that kept them. -/
theorem common_of_kept {as bs cs : List (Sample α)} (ha : as.Pairwise fun p q => p.x ≤ q.x)
    (hx : cs.map (·.x) = (commonSamples as bs).map (·.1.x)) :
    commonIndices cs bs = (List.range cs.length).zip ((commonIndices as bs).map (·.2)) ∧
      commonSamples cs bs = cs.zip ((commonSamples as bs).map (·.2)) := by
  fun_induction commonSamples as bs generalizing cs with
  | case1 a as b bs hm ih =>
    cases cs with
    | nil => cases hx
    | cons c cs =>
      simp only [List.map_cons, List.cons.injEq] at hx
      obtain ⟨hi, hs⟩ := ih (List.pairwise_cons.1 ha).2 hx.2
      have hm' : xMatches c.x b.x = true := hx.1 ▸ hm
      constructor
      · rw [commonIndices, if_pos hm', hi, commonIndices, if_pos hm, List.length_cons,
          List.range_succ_eq_map, List.map_cons, List.zip_cons_cons, map_shift_zip]
      · rw [commonSamples, if_pos hm', hs]
        rfl
  | case2 a as b bs hm hlt ih =>
    obtain ⟨hi, hs⟩ := ih (List.pairwise_cons.1 ha).2 hx
    refine ⟨?_, hs⟩
    rw [hi, commonIndices.eq_1 a as b bs, if_neg hm, if_pos hlt, List.map_map]
    rfl
  | case3 a as b bs hm hlt ih =>
    obtain ⟨hi, hs⟩ := ih ha hx
    cases cs with
    | nil => simp
    | cons c cs =>
      -- A partner above `a.x` would match `a.x` as well, but `b` was passed over there.
      have hac : a.x ≤ c.x := le_of_kept ha (hx ▸ List.mem_map_of_mem List.mem_cons_self)
      have hba : b.x ≤ a.x := not_lt.1 hlt
      have hm' : ¬xMatches c.x b.x = true := fun h =>
        hm (xMatches_comm.1 (xMatches_of_between hba hac (xMatches_comm.1 h)).1)
      have hlt' : ¬c.x < b.x := not_lt.2 (hba.trans hac)
      constructor
      · rw [commonIndices, if_neg hm', if_neg hlt', hi, commonIndices.eq_1 a as b bs, if_neg hm,
          if_neg hlt, map_shift_zip]
        simp only [Nat.add_zero, List.map_id']
      · rw [commonSamples, if_neg hm', if_neg hlt', hs]
  | case4 as bs h =>
    cases List.map_eq_nil_iff.1 hx
    simp

variable {s t : Series α}

/-- What two series are combined to has all its samples in common with the second one: whatever the
values are, they stand at the positions that are kept. -/
theorem commonSamples_combine (hs : s.xs.Pairwise (· ≤ ·)) (f : α → α → α) :
    commonSamples (s.combine t f).samples t.samples =
      (commonSamples s.samples t.samples).map fun (a, b) => (⟨a.x, f a.y b.y⟩, b) := by
  rw [(common_of_kept (List.pairwise_map.1 hs) (xs_combine s t f)).2, combine, List.zip_map']

/-- The index pairs that the second walk takes. -/
theorem commonIndices_combine (hs : s.xs.Pairwise (· ≤ ·)) (f : α → α → α) :
    commonIndices (s.combine t f).samples t.samples =
      (List.range (s.combine t f).size).zip ((commonIndices s.samples t.samples).map (·.2)) :=
  (common_of_kept (List.pairwise_map.1 hs) (xs_combine s t f)).1

end Exact

/-! ## The round trip -/

section RoundTrip

variable {α : Type} [Field α] [LinearOrder α] [IsStrictOrderedRing α] [FloorRing α] [Elementary α]
  [ExactElementary α]

/-- **Subtraction undoes addition.** In exact arithmetic, add a series to one with ascending
positions and subtract it again. The result is what alignment keeps of the first series: for every
index pair of the alignment the sample of the first series, as it was. The second alignment drops
none of the samples of the sum and takes the same samples of the second series again, whatever the
order of its positions is. -/
theorem subtract_undoes_add (s t : Series α) (hs : s.xs.Pairwise (· ≤ ·)) :
    let sum := s.combine t Operator.add.apply
    let back := sum.combine t Operator.subtract.apply
    let pairs := commonIndices s.samples t.samples
    back = (s.align t).1 ∧ sum.align t = (sum, (s.align t).2) ∧
      sum.size = pairs.length ∧ back.size = pairs.length ∧
      ∀ k i j : Nat, pairs[k]? = some (i, j) →
        (commonIndices sum.samples t.samples)[k]? = some (k, j) ∧
        ∃ a, s.samples[i]? = some a ∧ back.samples[k]? = some a := by
  intro sum back pairs
  have hcommon := commonSamples_combine (t := t) hs Operator.add.apply
  have hindices := commonIndices_combine (t := t) hs Operator.add.apply
  have hsize : sum.size = pairs.length := by
    rw [length_commonIndices]
    exact List.length_map _
  have hback : back = (s.align t).1 := by
    show Series.mk _ = _
    rw [hcommon, List.map_map, align]
    refine congrArg Series.mk (List.map_congr_left fun c _ => Sample.ext rfl ?_)
    exact add_sub_cancel_right c.1.y c.2.y
  refine ⟨hback, ?_, hsize, ?_, fun k i j hk => ?_⟩
  · show (Series.mk _, Series.mk _) = _
    rw [hcommon, List.map_map, List.map_map]
    rfl
  · rw [hback, length_commonIndices]
    exact List.length_map _
  · obtain ⟨a, b, ha, -, hc⟩ := getElem?_commonSamples hk
    have hlt : k < sum.size := hsize ▸ (List.getElem?_eq_some_iff.1 hk).1
    refine ⟨?_, a, ha, ?_⟩
    · rw [hindices, List.getElem?_zip_eq_some, List.getElem?_range hlt, List.getElem?_map, hk]
      exact ⟨rfl, rfl⟩
    · rw [hback, align, List.getElem?_map, hc]
      rfl

/-- At a billion, positions one apart match. The position `10 ^ 9 + 1` is in both series, but both
samples there are paired with other ones, and the second walk pairs them in the same way. The first
sample of either series has no partner. -/
theorem subtract_undoes_add_clustered :
    let s : Series ℝ := ⟨[⟨0, 1⟩, ⟨10 ^ 9, 2⟩, ⟨10 ^ 9 + 1, 3⟩]⟩
    let t : Series ℝ := ⟨[⟨1, 5⟩, ⟨10 ^ 9 + 1, 6⟩, ⟨10 ^ 9 + 2, 7⟩]⟩
    let sum := s.combine t Operator.add.apply
    s.xs.Pairwise (· ≤ ·) ∧ commonIndices s.samples t.samples = [(1, 1), (2, 2)] ∧
      sum.combine t Operator.subtract.apply = ⟨[⟨10 ^ 9, 2⟩, ⟨10 ^ 9 + 1, 3⟩]⟩ ∧
      (commonIndices sum.samples t.samples)[1]? = some (1, 2) := by
  intro s t sum
  have hs : s.xs.Pairwise (· ≤ ·) := by norm_num [s, xs]
  have h₀ : ¬xMatches (0 : ℝ) 1 = true := by
    norm_num [xMatches_iff, matchTolerance]
  have h₁ : ¬xMatches (10 ^ 9 : ℝ) 1 = true := by
    norm_num [xMatches_iff, matchTolerance]
  have h₂ : xMatches (10 ^ 9 : ℝ) (10 ^ 9 + 1) = true := by
    norm_num [xMatches_iff, matchTolerance]
  have h₃ : xMatches (10 ^ 9 + 1 : ℝ) (10 ^ 9 + 2) = true := by
    norm_num [xMatches_iff, matchTolerance]
  have hlt : ¬(10 ^ 9 : ℝ) < 1 := by norm_num
  have hp : commonIndices s.samples t.samples = [(1, 1), (2, 2)] := by
    simp [s, t, commonIndices, shift, h₀, h₁, h₂, h₃, hlt]
  obtain ⟨hback, -, -, -, hpairs⟩ := subtract_undoes_add s t hs
  refine ⟨hs, hp, hback.trans ?_, (hpairs 1 2 2 (by rw [hp]; rfl)).1⟩
  simp [s, t, align, commonSamples, h₀, h₁, h₂, h₃, hlt]

end RoundTrip

end Series

end SignalCalc
