import Mathlib.Analysis.Convex.Segment
import SignalCalc.Proofs.Series.Alignment
import SignalCalc.Series.Lookup

/-!
# Looking up values in ascending series

Bisection finds where a condition that holds up to some index and fails from there on stops to hold
(`lt_bisect_iff`). So a position in the range of an ascending series is that of the first sample, or
it lies between two adjacent samples (`Series.place_cases`), above the first and not above the
second. Every other sample is farther away than one of these two, and a position between two that
match matches both (`xMatches_of_between`): if any sample matches, so does one of the two. Otherwise
they are two different positions with the given one between them.

Main statement: `Series.lookup_is_interpolation`.
-/

namespace SignalCalc

/-! ## Bisection -/

section Bisection

variable {below : Nat → Bool} (hdown : ∀ i j, i ≤ j → below j = true → below i = true)

include hdown

/-- The part that is searched is what is in question: all before it is below, and nothing behind it
is. -/
theorem lt_bisectFrom_iff {base size : Nat} (hs : 0 < size) (hlow : ∀ i < base, below i = true)
    (hhigh : ∀ i, base + size ≤ i → below i = false) (i : Nat) :
    i < bisectFrom below base size ↔ below i = true := by
  fun_induction bisectFrom below base size with
  | case1 base size hsize half ih =>
    -- Either the base moves up to an index that is below, or the end moves down to one that is not.
    have hhalf : 0 < half ∧ half < size := by omega
    refine ih (by omega) (fun j hj => ?_) (fun j hj => ?_)
    · split at hj
      · next hb => exact hdown j (base + half) (Nat.le_of_lt hj) hb
      · exact hlow j hj
    · split at hj
      · exact hhigh j (by omega)
      · next hb =>
        exact Bool.eq_false_iff.2 fun hj' => hb (hdown (base + half) j (by omega) hj')
  | case2 base size hsize hb =>
    constructor
    · exact fun hi => hdown i base (by omega) hb
    · intro hi
      by_contra hge
      exact Bool.false_ne_true ((hhigh i (by omega)).symm.trans hi)
  | case3 base size hsize hb =>
    exact ⟨hlow i, fun hi => Nat.lt_of_not_le fun hge => hb (hdown base i hge hi)⟩

/-- The indices before the one that bisection finds are those at which the test holds. -/
theorem lt_bisect_iff {size : Nat} (hhigh : ∀ i, size ≤ i → below i = false) (i : Nat) :
    i < bisect below size ↔ below i = true := by
  rw [bisect]
  split
  · next h =>
    rw [hhigh i (by omega)]
    exact iff_of_false (Nat.not_lt_zero i) Bool.false_ne_true
  · exact lt_bisectFrom_iff hdown (by omega) (fun j hj => absurd hj (Nat.not_lt_zero j))
      (fun j hj => hhigh j (by omega)) i

end Bisection

/-! ## The place of a position -/

namespace Series

variable {α : Type} [LinearOrder α] {s : Series α} {x : α}

/-- In a series in ascending order a later sample is not at a smaller position. -/
theorem x_le_of_index_le (h : s.xs.Pairwise (· ≤ ·)) {i j : Nat} {p q : Sample α} (hij : i ≤ j)
    (hp : s.samples[i]? = some p) (hq : s.samples[j]? = some q) : p.x ≤ q.x := by
  obtain ⟨hi, rfl⟩ := List.getElem?_eq_some_iff.1 hp
  obtain ⟨hj, rfl⟩ := List.getElem?_eq_some_iff.1 hq
  rcases Nat.eq_or_lt_of_le hij with rfl | hlt
  · exact le_rfl
  · exact List.pairwise_iff_getElem.1 (List.pairwise_map.1 h) i j hi hj hlt

/-- The samples before the place of a position are those below it. -/
theorem lt_place_iff (h : s.xs.Pairwise (· ≤ ·)) (x : α) (i : Nat) :
    i < s.place x ↔ ∃ p, s.samples[i]? = some p ∧ p.x < x := by
  have hbelow (j : Nat) : (s.samples[j]?.any fun p => decide (p.x < x)) = true ↔
      ∃ p, s.samples[j]? = some p ∧ p.x < x := by
    cases s.samples[j]? <;> simp
  rw [← hbelow]
  refine lt_bisect_iff (fun i j hij hj => ?_) (fun j hj => ?_) i
  · obtain ⟨q, hq, hlt⟩ := (hbelow j).1 hj
    have hi : i < s.samples.length := hij.trans_lt (List.getElem?_eq_some_iff.1 hq).1
    have hp := List.getElem?_eq_getElem hi
    exact (hbelow i).2 ⟨_, hp, (x_le_of_index_le h hij hp hq).trans_lt hlt⟩
  · rw [List.getElem?_eq_none hj]
    rfl

/-- A series spans the positions from its first one to its last one. -/
theorem spans_iff : s.spans x = true ↔ ∃ first last, s.samples.head? = some first ∧
    s.samples.getLast? = some last ∧ first.x ≤ x ∧ x ≤ last.x := by
  rw [spans]
  cases s.samples.head? with
  | none => simp
  | some first => cases s.samples.getLast? <;> simp

/-- A position that the series does not reach is before its first or behind its last sample. -/
theorem not_spans_iff : ¬s.spans x = true ↔ s.samples = [] ∨ ∃ first last,
    s.samples.head? = some first ∧ s.samples.getLast? = some last ∧
      (x < first.x ∨ last.x < x) := by
  rcases s with ⟨_ | ⟨first, rest⟩⟩
  · simp [spans]
  · have hlast := List.getLast?_eq_getLast_of_ne_nil (List.cons_ne_nil first rest)
    simp [spans, hlast, imp_iff_not_or]

/-- A position in the range of the series is that of the first sample, or it lies between two
adjacent ones. -/
theorem place_cases (h : s.xs.Pairwise (· ≤ ·)) (hx : s.spans x = true) :
    (s.place x = 0 ∧ ∃ b, s.samples[0]? = some b ∧ b.x = x) ∨
      ∃ i a b, s.place x = i + 1 ∧ s.samples[i]? = some a ∧ s.samples[i + 1]? = some b ∧
        a.x < x ∧ x ≤ b.x := by
  obtain ⟨first, last, hfirst, hlast, hle, hge⟩ := spans_iff.1 hx
  rw [List.head?_eq_getElem?] at hfirst
  rw [List.getLast?_eq_getElem?] at hlast
  have hplace : s.place x ≤ s.samples.length - 1 := by
    by_contra hlt
    obtain ⟨p, hp, hbelow⟩ := (lt_place_iff h x _).1 (Nat.lt_of_not_le hlt)
    cases hlast.symm.trans hp
    exact hbelow.not_ge hge
  have hlength := (List.getElem?_eq_some_iff.1 hlast).1
  obtain ⟨b, hb⟩ : ∃ b, s.samples[s.place x]? = some b :=
    ⟨_, List.getElem?_eq_getElem (hplace.trans_lt hlength)⟩
  have hxb : x ≤ b.x := not_lt.1 fun hlt =>
    Nat.lt_irrefl _ ((lt_place_iff h x (s.place x)).2 ⟨b, hb, hlt⟩)
  cases hi : s.place x with
  | zero =>
    rw [hi] at hb
    cases hb.symm.trans hfirst
    exact .inl ⟨rfl, first, hfirst, le_antisymm hle hxb⟩
  | succ i =>
    rw [hi] at hb
    obtain ⟨a, ha, hax⟩ := (lt_place_iff h x i).1 (hi ▸ Nat.lt_succ_self i)
    exact .inr ⟨i, a, b, rfl, ha, hb, hax, hxb⟩

/-! ## The value at a position -/

variable [Field α] [Elementary α]

/-- What a look-up finds: the value of a sample that matches the position or, where none does, the
value on the line through two adjacent samples around it. -/
inductive Found (s : Series α) (x : α) : Lookup α → Prop where
  | onSample {p : Sample α} : p ∈ s.samples → xMatches p.x x = true → Found s x ⟨p.y, true⟩
  | between {i : Nat} {a b : Sample α} : s.samples[i]? = some a → s.samples[i + 1]? = some b →
      a.x < x → x < b.x → (∀ p ∈ s.samples, ¬xMatches p.x x = true) →
      Found s x ⟨interpolate a b x, false⟩

variable [IsStrictOrderedRing α] [FloorRing α] [ExactElementary α]

/-- If any sample matches a position between two adjacent ones, one of the two does. -/
theorem xMatches_neighbour (h : s.xs.Pairwise (· ≤ ·)) {i : Nat} {a b p : Sample α}
    (ha : s.samples[i]? = some a) (hb : s.samples[i + 1]? = some b) (hax : a.x ≤ x) (hxb : x ≤ b.x)
    (hp : p ∈ s.samples) (hm : xMatches p.x x = true) :
    xMatches b.x x = true ∨ xMatches a.x x = true := by
  obtain ⟨j, hj⟩ := List.mem_iff_getElem?.1 hp
  -- On either side the nearer of the two stands between the position and the sample that matches.
  rcases Nat.lt_or_ge i j with hij | hij
  · have hbp := x_le_of_index_le h hij hb hj
    exact .inl (xMatches_comm.1 (xMatches_of_between hxb hbp (xMatches_comm.1 hm)).1)
  · have hpa := x_le_of_index_le h hij hj ha
    exact .inr (xMatches_of_between hpa hax hm).2

/-- In the range of an ascending series there is a value everywhere. -/
theorem exists_found (h : s.xs.Pairwise (· ≤ ·)) (hx : s.spans x = true) :
    ∃ l, s.yAt? x = some l ∧ s.Found x l := by
  rw [yAt?, if_pos hx]
  rcases place_cases h hx with ⟨hi, b, hb, rfl⟩ | ⟨i, a, b, hi, ha, hb, hax, hxb⟩
  · have hm := xMatches_refl b.x
    simp only [hi, hb, if_true, hm]
    exact ⟨_, rfl, .onSample (List.mem_of_getElem? hb) hm⟩
  · simp only [hi, hb, Nat.add_one_ne_zero, if_false, Nat.add_sub_cancel, ha]
    split
    · next hm => exact ⟨_, rfl, .onSample (List.mem_of_getElem? hb) hm⟩
    · next hmb =>
      split
      · next hm => exact ⟨_, rfl, .onSample (List.mem_of_getElem? ha) hm⟩
      · next hma =>
        have hne : x ≠ b.x := by
          rintro rfl
          exact hmb (xMatches_refl b.x)
        refine ⟨_, rfl, .between ha hb hax (lt_of_le_of_ne hxb hne) fun p hp hm => ?_⟩
        exact (xMatches_neighbour h ha hb hax.le hxb hp hm).elim hmb hma

/-- There is no value just where the series does not reach. -/
theorem yAt?_eq_none_iff (h : s.xs.Pairwise (· ≤ ·)) : s.yAt? x = none ↔ ¬s.spans x = true := by
  constructor
  · intro hnone hx
    obtain ⟨l, hl, -⟩ := exists_found h hx
    cases hnone.symm.trans hl
  · intro hx
    rw [yAt?, if_neg hx]

omit [FloorRing α] [Elementary α] [ExactElementary α] in
/-- Between two samples the value is on the segment between them. -/
theorem interpolate_mem_segment {a b : Sample α} (hax : a.x < x) (hxb : x < b.x) :
    (x, interpolate a b x) ∈ segment α (a.x, a.y) (b.x, b.y) := by
  have hpos : 0 < b.x - a.x := sub_pos.2 (hax.trans hxb)
  have hshare : (x - a.x) / (b.x - a.x) * (b.x - a.x) = x - a.x := div_mul_cancel₀ _ hpos.ne'
  rw [segment_eq_image']
  refine ⟨(x - a.x) / (b.x - a.x), ⟨div_nonneg (sub_nonneg.2 hax.le) hpos.le, ?_⟩, ?_⟩
  · rw [div_le_one hpos]
    exact sub_le_sub_right hxb.le _
  · ext
    · show a.x + (x - a.x) / (b.x - a.x) * (b.x - a.x) = x
      rw [hshare, add_sub_cancel]
    · show a.y + (x - a.x) / (b.x - a.x) * (b.y - a.y) = interpolate a b x
      rw [interpolate, mul_comm (b.y - a.y), mul_div_right_comm]

/-- **A look-up is an interpolation.** Take a series whose positions do not descend. There is no
value at a position just if the series is empty or does not reach it. Otherwise a sample is reported
just if one matches the position, and then the value is that of one that does. If none is reported,
two adjacent samples stand strictly on both sides of the position, so that it is not divided by
zero, and the value is on the segment between the two. -/
theorem lookup_is_interpolation (h : s.xs.Pairwise (· ≤ ·)) (x : α) :
    (s.yAt? x = none ↔ s.samples = [] ∨ ∃ first last, s.samples.head? = some first ∧
      s.samples.getLast? = some last ∧ (x < first.x ∨ last.x < x)) ∧
    ∀ l, s.yAt? x = some l →
      (l.onSample = true ↔ ∃ p ∈ s.samples, xMatches p.x x = true) ∧
      (l.onSample = true → ∃ p ∈ s.samples, xMatches p.x x = true ∧ l.y = p.y) ∧
      (l.onSample = false → ∃ i a b, s.samples[i]? = some a ∧ s.samples[i + 1]? = some b ∧
        a.x < x ∧ x < b.x ∧ b.x - a.x ≠ 0 ∧ l.y = interpolate a b x ∧
        (x, l.y) ∈ segment α (a.x, a.y) (b.x, b.y) ∧ l.y ∈ Set.uIcc a.y b.y) := by
  refine ⟨?_, fun l hl => ?_⟩
  · rw [yAt?_eq_none_iff h, not_spans_iff]
  · have hx : s.spans x = true := by
      by_contra hx
      cases hl.symm.trans ((yAt?_eq_none_iff h).2 hx)
    obtain ⟨l', hl', hfound⟩ := exists_found h hx
    cases hl.symm.trans hl'
    cases hfound with
    | onSample hp hm =>
      exact ⟨iff_of_true rfl ⟨_, hp, hm⟩, fun _ => ⟨_, hp, hm, rfl⟩, nofun⟩
    | between ha hb hax hxb hnone =>
      refine ⟨iff_of_false Bool.false_ne_true fun ⟨p, hp, hm⟩ => hnone p hp hm, nofun, fun _ => ?_⟩
      have hsegment := interpolate_mem_segment hax hxb
      refine ⟨_, _, _, ha, hb, hax, hxb, (sub_pos.2 (hax.trans hxb)).ne', rfl, hsegment, ?_⟩
      rw [← segment_eq_uIcc]
      exact (Prod.segment_subset _ _ hsegment).2

/-- Two samples stand at zero and one at four. Five is out of range, a position just below four
matches the sample there, and at one the value is on the line from the second sample to the third.
-/
theorem lookup_is_interpolation_repeated :
    let s : Series ℝ := ⟨[⟨0, 1⟩, ⟨0, 2⟩, ⟨4, 10⟩]⟩
    s.xs.Pairwise (· ≤ ·) ∧ s.yAt? 5 = none ∧
      (∃ l, s.yAt? (4 - 1e-10) = some l ∧ l.onSample = true) ∧
      s.yAt? 1 = some ⟨4, false⟩ := by
  intro s
  have h : s.xs.Pairwise (· ≤ ·) := by norm_num [s, xs]
  have hreach {x : ℝ} (hx : s.yAt? x = none) : x < 0 ∨ 4 < x := by
    rcases (lookup_is_interpolation h x).1.1 hx with hnil | ⟨first, last, hfirst, hlast, hout⟩
    · cases hnil
    · cases hfirst
      cases hlast
      exact hout
  refine ⟨h, (lookup_is_interpolation h 5).1.2 (.inr ⟨_, _, rfl, rfl, .inr (by norm_num)⟩), ?_, ?_⟩
  · cases hl : s.yAt? (4 - 1e-10) with
    | none =>
      have := hreach hl
      norm_num at this
    | some l =>
      have hm : xMatches (4 : ℝ) (4 - 1e-10) = true := by
        norm_num [xMatches_iff, matchTolerance]
      exact ⟨l, rfl, ((lookup_is_interpolation h _).2 l hl).1.2 ⟨⟨4, 10⟩, by simp [s], hm⟩⟩
  · cases hl : s.yAt? 1 with
    | none =>
      have := hreach hl
      norm_num at this
    | some l =>
      obtain ⟨hsample, -, hbetween⟩ := (lookup_is_interpolation h 1).2 l hl
      have hfar : l.onSample = false := by
        rw [Bool.eq_false_iff, ne_eq, hsample]
        norm_num [s, xMatches_iff, matchTolerance]
      obtain ⟨i, a, b, ha, hb, hax, hxb, -, hy, -⟩ := hbetween hfar
      rcases l with ⟨y, onSample⟩
      cases hfar
      rcases i with _ | _ | i
      · cases hb
        norm_num at hxb
      · cases ha
        cases hb
        norm_num [interpolate] at hy
        rw [hy]
      · cases hb

end Series

end SignalCalc
