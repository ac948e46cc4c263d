import SignalCalc.Filter.Apply
import SignalCalc.Proofs.Filter.Cascade
import SignalCalc.Proofs.Series.Columns

/-!
# Filtered columns

A filter writes its output over a copy of the values and starts at the first of them. A history with
a sample rate has a first value, and the output is as long as the input (`length_filterList`), so a
filtered history has the positions that it had (`Series.xs_of_filtered`), stored as columns, too
(`Series.columns_filtered`).
-/

namespace SignalCalc

section Output

variable {α : Type} [Zero α] [Neg α] [Add α] [Sub α] [Mul α] [Div α] [BEq α]

/-- A filter gives a value for every value. -/
theorem DigitalFilter.length_filterList (f : DigitalFilter α) (ys : List α) :
    (f.filterList ys).length = ys.length := by
  cases ys with
  | nil => rfl
  | cons y ys => exact length_applyAll _ _

/-- What comes out of a filter stands at the positions of what went in. -/
theorem DigitalFilter.columns_filterSeries (f : DigitalFilter α) (s : Series α) :
    (f.filterSeries s).columns = ⟨s.xs, f.filterList s.ys⟩ :=
  s.columns_zipWith ((f.length_filterList s.ys).trans s.length_ys)

/-- A filter keeps the positions. -/
theorem DigitalFilter.xs_filterSeries (f : DigitalFilter α) (s : Series α) :
    (f.filterSeries s).xs = s.xs :=
  congrArg Columns.xs (f.columns_filterSeries s)

/-- The values run through a filter, which starts in the steady state of the first of them. -/
def Columns.runFilter (c : Columns α) (f : DigitalFilter α) : Except (Fault α) (Columns α) := do
  let first ← readAt c.ys 0
  return ⟨c.xs, ((f.settle first).applyAll c.ys).1⟩

/-- A filter that runs over the values by index gives those of the filtered series, and meets no
index outside the column. -/
theorem Series.columns_runFilter (s : Series α) (f : DigitalFilter α) (h : 0 < s.size) :
    s.columns.runFilter f = .ok (f.filterSeries s).columns := by
  obtain ⟨y, ys, hys⟩ : ∃ y ys, s.ys = y :: ys :=
    List.exists_cons_of_length_pos ((length_ys s).symm ▸ h)
  have hfirst : readAt s.columns.ys 0 = (.ok y : Except (Fault α) α) := by
    rw [columns, hys]
    rfl
  rw [Columns.runFilter, hfirst, ok_bind, f.columns_filterSeries, columns, hys]
  rfl

end Output

/-- The columns filtered by the given settings; if they ask for it, once more from their end. -/
def Columns.filtered {α : Type} [Zero α] [One α] [Neg α] [Add α] [Sub α] [Mul α] [Div α]
    [NatCast α] [OfScientific α] [LT α] [DecidableLT α] [LE α] [DecidableLE α] [BEq α]
    [Elementary α] (c : Columns α) (settings : FilterSettings α) :
    Except (Fault α) (Columns α) := do
  let rate ← Fault.lift c.positions.sampleRate
  let f ← Fault.lift (DigitalFilter.ofSettings rate settings)
  let forward ← c.runFilter f
  if settings.phaseless then return (← forward.reverse.runFilter f).reverse else return forward

namespace Series

section Rate

variable {α : Type} [Zero α] [Sub α] [Div α] [NatCast α] [OfScientific α] [LT α] [DecidableLT α]
  [BEq α] {s t : Series α}

/-- The sample rate is one of the positions. -/
theorem sampleRate_congr (h : s.xs = t.xs) : s.sampleRate = t.sampleRate := by
  rw [sampleRate, sampleRate, spacing?_congr h, size_congr h]

/-- A history with a sample rate has samples. -/
theorem size_pos_of_sampleRate {rate : α} (h : s.sampleRate = .ok rate) : 0 < s.size := by
  rcases s with ⟨_ | ⟨p, samples⟩⟩
  · cases h
  · exact Nat.succ_pos _

end Rate

section Filtered

variable {α : Type} [Zero α] [One α] [Neg α] [Add α] [Sub α] [Mul α] [Div α] [NatCast α]
  [OfScientific α] [LT α] [DecidableLT α] [LE α] [DecidableLE α] [BEq α] [Elementary α]
  {s t : Series α} {settings : FilterSettings α}

/-- A history is filtered if it has a sample rate and there is such a filter. -/
theorem filtered_eq_ok_iff :
    s.filtered settings = .ok t ↔ ∃ rate f, s.sampleRate = .ok rate ∧
      DigitalFilter.ofSettings rate settings = .ok f ∧
      t = if settings.phaseless then (f.filterSeries (f.filterSeries s).reverse).reverse
        else f.filterSeries s := by
  simp only [filtered, bind_eq_ok_iff, pure_eq_ok, Except.ok.injEq, eq_comm (b := t)]
  constructor
  · rintro ⟨rate, hr, f, hf, ht⟩
    exact ⟨rate, f, hr, hf, ht⟩
  · rintro ⟨rate, f, hr, hf, ht⟩
    exact ⟨rate, hr, f, hf, ht⟩

/-- A filtered series has the positions of the series, also if it is filtered forth and back. -/
theorem xs_of_filtered (h : s.filtered settings = .ok t) : t.xs = s.xs := by
  obtain ⟨rate, f, -, -, rfl⟩ := filtered_eq_ok_iff.1 h
  split <;> simp [f.xs_filterSeries]

/-- Filtering columns ends as filtering the series, its error included. -/
theorem columns_filtered (s : Series α) (settings : FilterSettings α) :
    s.columns.filtered settings = Fault.lift ((s.filtered settings).map columns) := by
  rw [Columns.filtered, filtered, sampleRate_congr s.xs_positions]
  cases hr : s.sampleRate with
  | error e => rfl
  | ok rate =>
    rw [Fault.lift_ok, ok_bind, ok_bind]
    cases DigitalFilter.ofSettings rate settings with
    | error e => rfl
    | ok f =>
      have hs : 0 < s.size := size_pos_of_sampleRate hr
      have hback : 0 < (f.filterSeries s).reverse.size := by
        rwa [← length_xs, xs_reverse, List.length_reverse, f.xs_filterSeries, length_xs]
      rw [Fault.lift_ok, ok_bind, ok_bind, s.columns_runFilter f hs, ok_bind]
      cases settings.phaseless with
      | false => rfl
      | true =>
        rw [if_pos rfl, ← columns_reverse, columns_runFilter _ f hback, ok_bind, ← columns_reverse]
        rfl

end Filtered

end Series

end SignalCalc
