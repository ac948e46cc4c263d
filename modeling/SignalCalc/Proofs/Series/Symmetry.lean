import SignalCalc.Expression.Operator
import SignalCalc.Proofs.Series.Positions
import SignalCalc.Proofs.Series.RoundTrip

/-!
# Alignment in the other order

The walk over two series looks for a match first and then asks whether the left position is the
smaller one, so a position on the right is passed over in all other cases. If matching does not
depend on the order of two positions, and of two that do not match exactly one is the smaller
(`IsDecided`), these cases are those in which the right position is the smaller one. The walk in the
other order then makes the same decisions step by step (`commonIndices_swap`), although the
positions that it emits are others. Finite doubles are decided, whatever their order in the series
is.

Main statement: `align_is_symmetric`.
-/

namespace SignalCalc

namespace Series

section Walk

variable {α : Type} [One α] [Sub α] [Mul α] [OfScientific α] [Max α] [LT α] [DecidableLT α]
  [LE α] [DecidableLE α] [Elementary α]

/-- Any two positions match in either order, or exactly one of them is the smaller. -/
structure IsDecided (as bs : List (Sample α)) : Prop where
  comm : ∀ a ∈ as, ∀ b ∈ bs, xMatches a.x b.x = xMatches b.x a.x
  lt_iff : ∀ a ∈ as, ∀ b ∈ bs, ¬xMatches a.x b.x = true → (a.x < b.x ↔ ¬b.x < a.x)

omit [DecidableLT α] in
/-- Some of the samples can be told apart if all of them can. -/
theorem IsDecided.mono {as bs as' bs' : List (Sample α)} (h : IsDecided as bs)
    (ha : ∀ a ∈ as', a ∈ as) (hb : ∀ b ∈ bs', b ∈ bs) : IsDecided as' bs' :=
  ⟨fun a ha' b hb' => h.comm a (ha a ha') b (hb b hb'),
    fun a ha' b hb' => h.lt_iff a (ha a ha') b (hb b hb')⟩

/-- A shift of swapped pairs is a swap of shifted ones. -/
theorem map_swap_shift (m n : Nat) (pairs : List (Nat × Nat)) :
    (pairs.map (shift m n)).map Prod.swap = (pairs.map Prod.swap).map (shift n m) := by
  rw [List.map_map, List.map_map]
  rfl

/-- The walk in the other order takes the same pairs. The induction is along the walk; where it
passes over a sample on one side, the other walk passes over the same sample on its other side. -/
theorem commonIndices_swap {as bs : List (Sample α)} (h : IsDecided as bs) :
    commonIndices bs as = (commonIndices as bs).map Prod.swap := by
  fun_induction commonIndices as bs with
  | case1 a as b bs hm ih =>
    have hcomm := h.comm a List.mem_cons_self b List.mem_cons_self
    have htail := ih (h.mono (fun _ => List.mem_cons_of_mem a) fun _ => List.mem_cons_of_mem b)
    rw [commonIndices, if_pos (hcomm ▸ hm), htail, List.map_cons, map_swap_shift]
    rfl
  | case2 a as b bs hm hlt ih =>
    have hcomm := h.comm a List.mem_cons_self b List.mem_cons_self
    have hnot := (h.lt_iff a List.mem_cons_self b List.mem_cons_self hm).1 hlt
    have htail := ih (h.mono (fun _ => List.mem_cons_of_mem a) fun _ => id)
    rw [commonIndices, if_neg (hcomm ▸ hm), if_neg hnot, htail, map_swap_shift]
  | case3 a as b bs hm hlt ih =>
    have hcomm := h.comm a List.mem_cons_self b List.mem_cons_self
    have hlt' := not_not.1
      (mt (h.lt_iff a List.mem_cons_self b List.mem_cons_self hm).2 hlt)
    have htail := ih (h.mono (fun _ => id) fun _ => List.mem_cons_of_mem b)
    rw [commonIndices, if_neg (hcomm ▸ hm), if_pos hlt', htail, map_swap_shift]
  | case4 as bs hnil =>
    exact commonIndices.eq_2 bs as fun b bs a as hb ha => hnil a as b bs ha hb

/-- The pairs of samples are those of the other order, exchanged. -/
theorem commonSamples_swap {as bs : List (Sample α)} (h : IsDecided as bs) :
    commonSamples bs as = (commonSamples as bs).map Prod.swap := by
  refine List.ext_getElem? fun k => ?_
  have hindices := commonIndices_swap h
  cases hk : (commonIndices as bs)[k]? with
  | none =>
    have hk' : (commonIndices bs as)[k]? = none := by rw [hindices, List.getElem?_map, hk]; rfl
    rw [List.getElem?_eq_none_iff, length_commonIndices] at hk hk'
    rw [List.getElem?_eq_none hk', List.getElem?_eq_none (by rwa [List.length_map])]
  | some p =>
    obtain ⟨i, j⟩ := p
    have hk' : (commonIndices bs as)[k]? = some (j, i) := by
      rw [hindices, List.getElem?_map, hk]
      rfl
    obtain ⟨a, b, ha, hb, hab⟩ := getElem?_commonSamples hk
    obtain ⟨b', a', hb', ha', hba⟩ := getElem?_commonSamples hk'
    cases ha.symm.trans ha'
    cases hb.symm.trans hb'
    rw [hba, List.getElem?_map, hab]
    rfl

variable {s t : Series α}

/-- What alignment keeps at a pair of common indices. -/
theorem getElem?_align {k i j : Nat} (h : (commonIndices s.samples t.samples)[k]? = some (i, j)) :
    ∃ a b, s.samples[i]? = some a ∧ t.samples[j]? = some b ∧
      (s.align t).1.samples[k]? = some a ∧ (s.align t).2.samples[k]? = some ⟨a.x, b.y⟩ := by
  obtain ⟨a, b, ha, hb, hc⟩ := getElem?_commonSamples h
  refine ⟨a, b, ha, hb, ?_, ?_⟩ <;> simp only [align, List.getElem?_map, hc, Option.map_some]

variable (s t) in
/-- An aligned series has a sample for each index pair. -/
theorem size_align : (s.align t).1.size = (commonIndices s.samples t.samples).length := by
  rw [length_commonIndices]
  exact List.length_map _

/-- What is combined has the positions that alignment keeps of the first series. -/
theorem xs_combine_eq_align (f : α → α → α) : (s.combine t f).xs = (s.align t).1.xs := by
  rw [xs_combine, align, xs, List.map_map]
  rfl

/-- A combined series has a sample for each index pair. -/
theorem size_combine (f : α → α → α) :
    (s.combine t f).size = (commonIndices s.samples t.samples).length := by
  rw [← length_xs, xs_combine_eq_align, length_xs, size_align]

/-- Values that are combined without regard to their order are combined alike in either order of the
series. -/
theorem ys_combine_swap (h : IsDecided s.samples t.samples) {f : α → α → α}
    (hf : ∀ u v, f u v = f v u) : (s.combine t f).ys = (t.combine s f).ys := by
  have hswap := commonSamples_swap h
  rw [combine, combine, hswap, ys, ys, List.map_map, List.map_map, List.map_map]
  exact List.map_congr_left fun c _ => hf c.1.y c.2.y

end Walk

/-! ## Doubles -/

/-- No position is infinite or undefined. -/
def HasFinitePositions (s : Series Float) : Prop := ∀ x ∈ s.xs, isFinite x = true

/-- Finiteness is one of the positions. -/
theorem HasFinitePositions.congr {s t : Series Float} (hs : s.HasFinitePositions)
    (h : s.xs = t.xs) : t.HasFinitePositions := by
  rwa [HasFinitePositions, ← h]

/-- Finite positions that do not match are ordered one way or the other. -/
theorem HasFinitePositions.isDecided {s t : Series Float} (hs : s.HasFinitePositions)
    (ht : t.HasFinitePositions) : IsDecided s.samples t.samples := by
  constructor
  · intro a ha b hb
    exact xMatches_comm_of_isFinite (hs _ (List.mem_map_of_mem ha)) (ht _ (List.mem_map_of_mem hb))
  · intro a ha b hb hm
    exact lt_iff_not_lt_of_not_xMatches (hs _ (List.mem_map_of_mem ha))
      (ht _ (List.mem_map_of_mem hb)) hm

/-- Alignment keeps positions of the first series only. -/
theorem HasFinitePositions.align {s : Series Float} (hs : s.HasFinitePositions)
    (t : Series Float) : (s.align t).1.HasFinitePositions := by
  intro x hx
  obtain ⟨a, ha, rfl⟩ := List.mem_map.1 hx
  have hmem := (sublist_fst_commonSamples s.samples t.samples).subset ha
  exact hs _ (List.mem_map_of_mem hmem)

/-- Series with the same finite positions are aligned already. -/
theorem HasFinitePositions.align_eq {s t : Series Float} (hs : s.HasFinitePositions)
    (h : s.xs = t.xs) : s.align t = (s, t) :=
  align_of_xs_eq h fun x hx => xMatches_self (hs x hx)

/-- Sums and products of doubles do not depend on the order. -/
theorem apply_comm {o : Operator} (ho : o = .add ∨ o = .multiply) (u v : Float) :
    o.apply u v = o.apply v u := by
  rcases ho with rfl | rfl
  · exact Double.add_comm u v
  · exact Double.mul_comm u v

/-- **Alignment is symmetric and idempotent.** Let the positions of two series be finite, in any
order and with any repeats. Aligning them in the other order selects the same index pairs, with the
components exchanged: each result has the samples of its own left series, and the values of the
right one at the positions of the left one. So the series are combined to as many samples in either
order, at the positions of their left operands, and by an operation that does not depend on the
order, such as addition and multiplication, to the same values. Series with the same positions are
aligned as they are, and so aligning what was aligned changes nothing. -/
theorem align_is_symmetric :
    (∀ s t : Series Float, s.HasFinitePositions → t.HasFinitePositions →
      let pairs := commonIndices s.samples t.samples
      commonIndices t.samples s.samples = pairs.map Prod.swap ∧
      (s.align t).1.size = pairs.length ∧ (t.align s).1.size = pairs.length ∧
      (∀ k i j : Nat, pairs[k]? = some (i, j) → ∃ a b,
        s.samples[i]? = some a ∧ t.samples[j]? = some b ∧
        (s.align t).1.samples[k]? = some a ∧ (s.align t).2.samples[k]? = some ⟨a.x, b.y⟩ ∧
        (t.align s).1.samples[k]? = some b ∧ (t.align s).2.samples[k]? = some ⟨b.x, a.y⟩) ∧
      ∀ f : Float → Float → Float,
        (s.combine t f).size = (t.combine s f).size ∧
        (s.combine t f).xs = (s.align t).1.xs ∧ (t.combine s f).xs = (t.align s).1.xs ∧
        ((∀ u v, f u v = f v u) → (s.combine t f).ys = (t.combine s f).ys)) ∧
    (∀ o : Operator, o = .add ∨ o = .multiply → ∀ u v : Float, o.apply u v = o.apply v u) ∧
    (∀ s t : Series Float, s.HasFinitePositions → s.xs = t.xs → s.align t = (s, t)) ∧
    ∀ s t : Series Float, s.HasFinitePositions →
      (s.align t).1.align (s.align t).2 = s.align t := by
  refine ⟨fun s t hs ht => ?_, fun o ho => apply_comm ho, fun s t hs h => hs.align_eq h,
    fun s t hs => ?_⟩
  · intro pairs
    have hd := hs.isDecided ht
    have hswap : commonIndices t.samples s.samples = pairs.map Prod.swap := commonIndices_swap hd
    refine ⟨hswap, size_align s t, ?_, fun k i j hk => ?_,
      fun f => ⟨?_, xs_combine_eq_align f, xs_combine_eq_align f, ys_combine_swap hd⟩⟩
    · rw [size_align, hswap, List.length_map]
    · have hk' : (commonIndices t.samples s.samples)[k]? = some (j, i) := by
        rw [hswap, List.getElem?_map, hk]
        rfl
      obtain ⟨a, b, ha, hb, hleft, hright⟩ := getElem?_align hk
      obtain ⟨b', a', hb', ha', hleft', hright'⟩ := getElem?_align hk'
      cases ha.symm.trans ha'
      cases hb.symm.trans hb'
      exact ⟨a, b, ha, hb, hleft, hright, hleft', hright'⟩
    · rw [size_combine, size_combine, hswap, List.length_map]
  · exact (hs.align t).align_eq (xs_align s t)

/-- The positions are not sorted and repeat, and the last pair matches at two different doubles. The
first sample of the second series has no partner in either order. -/
theorem align_is_symmetric_unsorted :
    let s : Series Float := ⟨[⟨2, 1⟩, ⟨0, 2⟩, ⟨0, 3⟩]⟩
    let t : Series Float := ⟨[⟨0, 10⟩, ⟨2, 20⟩, ⟨0, 30⟩, ⟨1e-10, 40⟩]⟩
    s.HasFinitePositions ∧ t.HasFinitePositions ∧
      commonIndices t.samples s.samples = [(1, 0), (2, 1), (3, 2)] ∧
      (s.combine t Operator.add.apply).ys = [21, 32, 43] ∧
      (t.combine s Operator.add.apply).ys = [21, 32, 43] ∧
      (s.combine t Operator.add.apply).xs = [2, 0, 0] ∧
      (t.combine s Operator.add.apply).xs = [2, 0, 1e-10] ∧
      (s.align t).1.align (s.align t).2 = s.align t := by
  intro s t
  have hs : s.HasFinitePositions := by
    show ∀ x ∈ [(2 : Float), 0, 0], isFinite x = true
    decide +kernel
  have ht : t.HasFinitePositions := by
    show ∀ x ∈ [(0 : Float), 2, 0, 1e-10], isFinite x = true
    decide +kernel
  obtain ⟨hboth, hcomm, -, hagain⟩ := align_is_symmetric
  obtain ⟨hpairs, -, -, -, hcombine⟩ := hboth s t hs ht
  obtain ⟨-, -, -, hys⟩ := hcombine Operator.add.apply
  have hsum : (s.combine t Operator.add.apply).ys = [21, 32, 43] := by decide +kernel
  refine ⟨hs, ht, hpairs.trans (by decide +kernel), hsum,
    (hys (hcomm .add (.inl rfl))).symm.trans hsum, by decide +kernel, by decide +kernel,
    hagain s t hs⟩

end Series

end SignalCalc
