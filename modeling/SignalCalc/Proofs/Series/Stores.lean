import SignalCalc.Fit.Polynomial
import SignalCalc.Proofs.Expression.Columns
import SignalCalc.Proofs.Filter.Columns

/-!
# Columns of one length

`Stores s c` says that a sequence of operations makes the series `s`, and that a program with two
columns for every series has stored `c` in its place. The operations are interpreted twice, on
series and on columns, and so are the expressions that are solved over stored datasets.

One step: on the columns of series an operation ends as it does on the series, and without an index
outside a column (`Operation.onColumns_eq`, one case for each operation); for expressions this is
`Columns.solve_stored`. From this follows by induction that what is stored are the columns of the
series (`Stores.eq_columns`), whose lengths are equal.

Main statement: `columns_have_one_length`.
-/

namespace SignalCalc

/-! ## Operations -/

/-- What makes a new series out of one or two others. -/
inductive Operation (α : Type) where
  | push (x y : α)
  | set (i : Nat) (x y : α)
  | setX (i : Nat) (x : α)
  | setY (i : Nat) (y : α)
  | scaleX (factor : α)
  | reverse
  /-- A function of the values: also a change of sign, and an operator with a number. -/
  | mapY (f : α → α)
  | alignLeft
  | alignRight
  /-- An operator of two series, or any other function of two values. -/
  | combine (f : α → α → α)
  | derivative
  | integral
  | rms
  | fitted (fit : PolynomialFit α)
  | filtered (settings : FilterSettings α)
  | amplitudeSpectrum (options : SpectrumOptions α)
  | responseAmplitude (count : Nat) (window : Window) (wrapped : Bool)
  | responsePhase (count : Nat) (window : Window) (wrapped : Bool)
  | responseCoherence (count : Nat) (window : Window) (wrapped : Bool)
  | coherence (count : Nat) (window : Window)

variable {α : Type} [Zero α] [One α] [Neg α] [Add α] [Sub α] [Mul α] [Div α] [NatCast α]
  [OfScientific α] [Max α] [LT α] [DecidableLT α] [LE α] [DecidableLE α] [BEq α] [Elementary α]

namespace Operation

/-- An operation on series. Most leave the second one aside. -/
def onSeries (s t : Series α) : Operation α → Except (Error α) (Series α)
  | push x y => .ok (s.push ⟨x, y⟩)
  | set i x y => .ok (s.set i ⟨x, y⟩).2
  | setX i x => .ok (s.setX i x)
  | setY i y => .ok (s.setY i y)
  | scaleX factor => .ok (s.scaleX factor)
  | reverse => .ok s.reverse
  | mapY f => .ok (s.mapY f)
  | alignLeft => .ok (s.align t).1
  | alignRight => .ok (s.align t).2
  | combine f => .ok (s.combine t f)
  | derivative => .ok s.derivative
  | integral => .ok s.integral
  | rms => .ok s.rms
  | fitted fit => .ok (fit.series s)
  | filtered settings => s.filtered settings
  | amplitudeSpectrum options => s.amplitudeSpectrum options
  | responseAmplitude count window wrapped => do
    return (← frequencyResponse s t count window wrapped).amplitude
  | responsePhase count window wrapped => do
    return (← frequencyResponse s t count window wrapped).phase
  | responseCoherence count window wrapped => do
    return (← frequencyResponse s t count window wrapped).coherence
  | coherence count window => SignalCalc.coherence s t count window

/-- An operation on columns. -/
def onColumns (c d : Columns α) : Operation α → Except (Fault α) (Columns α)
  | push x y => .ok (c.push x y)
  | set i x y => do return (← c.set i x y).2
  | setX i x => .ok (c.setX i x)
  | setY i y => .ok (c.setY i y)
  | scaleX factor => .ok (c.scaleX factor)
  | reverse => .ok c.reverse
  | mapY f => .ok (c.mapY f)
  | alignLeft => do return (← c.align d).1
  | alignRight => do return (← c.align d).2
  | combine f => c.combine d f
  | derivative => c.derivative
  | integral => c.integral
  | rms => c.rms
  | fitted fit => .ok (.tabulate c.xs fit.evaluate)
  | filtered settings => c.filtered settings
  | amplitudeSpectrum options => c.amplitudeSpectrum options
  | responseAmplitude count window wrapped => do
    return (← c.frequencyResponse d count window wrapped).amplitude
  | responsePhase count window wrapped => do
    return (← c.frequencyResponse d count window wrapped).phase
  | responseCoherence count window wrapped => do
    return (← c.frequencyResponse d count window wrapped).coherence
  | coherence count window => c.coherence d count window

/-- **One step.** On the columns of series an operation ends as on the series. In particular it
meets no index outside a column. -/
theorem onColumns_eq (o : Operation α) (s t : Series α) :
    o.onColumns s.columns t.columns = Fault.lift ((o.onSeries s t).map Series.columns) := by
  cases o with
  | push x y => exact congrArg _ (s.columns_push ⟨x, y⟩).symm
  | set i x y => rw [onColumns, s.columns_set i ⟨x, y⟩]; rfl
  | setX i x => exact congrArg _ (s.columns_setX i x).symm
  | setY i y => exact congrArg _ (s.columns_setY i y).symm
  | scaleX factor => exact congrArg _ (s.columns_scaleX factor).symm
  | reverse => exact congrArg _ s.columns_reverse.symm
  | mapY f => exact congrArg _ (s.columns_mapY f).symm
  | alignLeft | alignRight => rw [onColumns, s.columns_align]; rfl
  | combine f => exact s.columns_combine t f
  | derivative => exact s.columns_derivative
  | integral => exact s.columns_integral
  | rms => exact s.columns_rms
  | fitted fit => exact congrArg _ (Series.columns_tabulate _ _).symm
  | filtered settings => exact s.columns_filtered settings
  | amplitudeSpectrum options => exact s.columns_amplitudeSpectrum options
  | responseAmplitude count window wrapped | responsePhase count window wrapped
  | responseCoherence count window wrapped =>
    rw [onColumns, s.columns_frequencyResponse, onSeries]
    cases frequencyResponse s t count window wrapped <;> rfl
  | coherence count window => exact s.columns_coherence t count window

end Operation

/-! ## Sequences of operations -/

/-- A dataset and the columns that are stored for it. -/
structure Source (α : Type) where
  name : String
  series : Series α
  columns : Columns α

namespace Source

/-- The dataset alone. -/
def dataset {α : Type} (p : Source α) : Dataset α := ⟨p.name, p.series⟩

/-- What is stored, under the name of the dataset. -/
def stored {α : Type} (p : Source α) : StoredDataset α := ⟨p.name, p.columns⟩

/-- If the columns of every series are stored, then what is stored for the datasets is. -/
theorem map_stored {α : Type} {sources : List (Source α)}
    (h : ∀ p ∈ sources, p.columns = p.series.columns) :
    sources.map stored = (sources.map dataset).map Dataset.stored := by
  rw [List.map_map]
  refine List.map_congr_left fun p hp => ?_
  rw [stored, h p hp]
  rfl

end Source

/-- What sequences of operations make of series and of columns. What an expression is solved for is
stored if its datasets are. -/
inductive Stores : Series α → Columns α → Prop where
  | empty : Stores .empty .empty
  | zeros (n : Nat) : Stores (.zeros n) (.zeros n)
  | ofColumns {xs ys : List α} {s : Series α} {c : Columns α} :
      Series.ofColumns xs ys = .ok s → Columns.ofColumns xs ys = .ok c → Stores s c
  | tabulate (xs : List α) (f : α → α) : Stores (.tabulate xs f) (.tabulate xs f)
  | operation (o : Operation α) {s t u : Series α} {c d e : Columns α} :
      Stores s c → Stores t d → o.onSeries s t = .ok u → o.onColumns c d = .ok e → Stores u e
  | solved {sources : List (Source α)} {factor : α} {expression : String} {s : Series α}
      {c : Columns α} :
      (∀ p ∈ sources, Stores p.series p.columns) →
      solve (sources.map Source.dataset) factor expression = .ok (.series s) →
      Columns.solve (sources.map Source.stored) factor expression = .ok (.columns c) → Stores s c

namespace Stores

variable {s : Series α} {c : Columns α}

/-- **A whole run.** What is stored are the columns of the series. -/
theorem eq_columns (h : Stores s c) : c = s.columns := by
  induction h with
  | empty => rfl
  | zeros n => exact (Series.columns_zeros n).symm
  | @ofColumns xs ys s c hs hc =>
    have h := Series.columns_ofColumns xs ys
    rw [hs, hc, map_ok] at h
    exact (Except.ok.inj h).symm
  | tabulate xs f => exact (Series.columns_tabulate xs f).symm
  | operation o _ _ hu he ihs iht =>
    subst ihs iht
    rw [o.onColumns_eq, hu] at he
    exact (Except.ok.inj he).symm
  | solved _ hs hc ih =>
    rw [Source.map_stored ih, Columns.solve_stored, hs] at hc
    exact (StoredValue.columns.inj (Except.ok.inj hc)).symm

/-- Columns that are stored for a series are equally long. -/
theorem length_eq (h : Stores s c) : c.xs.length = c.ys.length := by
  rw [h.eq_columns]
  exact s.length_columns

/-- What an expression is solved for over stored datasets is the stored value of the expression. -/
theorem solve_eq {sources : List (Source α)} (h : ∀ p ∈ sources, Stores p.series p.columns)
    (factor : α) (expression : String) :
    Columns.solve (sources.map Source.stored) factor expression =
      Fault.lift
        ((solve (sources.map Source.dataset) factor expression).map Value.stored) := by
  rw [Source.map_stored fun p hp => (h p hp).eq_columns, Columns.solve_stored]

/-- Columns that an expression is solved for stand for a series that it is solved for. -/
theorem of_solve {sources : List (Source α)} (h : ∀ p ∈ sources, Stores p.series p.columns)
    {factor : α} {expression : String}
    (hc : Columns.solve (sources.map Source.stored) factor expression = .ok (.columns c)) :
    ∃ s, solve (sources.map Source.dataset) factor expression = .ok (.series s) ∧ Stores s c := by
  have he := solve_eq h factor expression
  rw [hc] at he
  rcases hv : solve (sources.map Source.dataset) factor expression with e | (a | s)
  · rw [hv] at he
    cases he
  · rw [hv] at he
    cases he
  · exact ⟨s, rfl, .solved h hv hc⟩

end Stores

/-! ## Positions that are kept -/

/-- The operations on a series that change its values at most. -/
structure Series.KeepsPositions (s : Series α) : Prop where
  map (f : α → α) : (s.mapY f).xs = s.xs
  negate : ∃ t, Value.negate (.series s) = .series t ∧ t.xs = s.xs
  operatorLeft (o : Operator) (a : α) :
    ∃ t, Value.binary o (.series s) (.number a) = .series t ∧ t.xs = s.xs
  operatorRight (o : Operator) (a : α) :
    ∃ t, Value.binary o (.number a) (.series s) = .series t ∧ t.xs = s.xs
  function (f : Builtin) : f ≠ .fft → ∃ t, f.onSeries s = .ok t ∧ t.xs = s.xs
  derivative : s.derivative.xs = s.xs
  integral : s.integral.xs = s.xs
  rms : s.rms.xs = s.xs
  fitted (fit : PolynomialFit α) : (fit.series s).xs = s.xs
  filtered (settings : FilterSettings α) :
    ((∃ t, s.filtered settings = .ok t) ↔
      ∃ rate f, s.sampleRate = .ok rate ∧ DigitalFilter.ofSettings rate settings = .ok f) ∧
    ∀ t, s.filtered settings = .ok t → t.xs = s.xs

/-- Every series keeps its positions under these operations. -/
theorem Series.keepsPositions (s : Series α) : s.KeepsPositions where
  map f := s.xs_mapY f
  negate := ⟨_, rfl, s.xs_mapY _⟩
  operatorLeft o a := ⟨_, rfl, s.xs_mapY _⟩
  operatorRight o a := ⟨_, rfl, s.xs_mapY _⟩
  function f hf := by
    cases f with
    | fft => exact absurd rfl hf
    | derivative => exact ⟨_, rfl, s.xs_derivative⟩
    | integral => exact ⟨_, rfl, s.xs_integral⟩
    | rms => exact ⟨_, rfl, s.xs_rms⟩
    | _ => exact ⟨_, rfl, s.xs_mapY _⟩
  derivative := s.xs_derivative
  integral := s.xs_integral
  rms := s.xs_rms
  fitted fit := xs_tabulate _ _
  filtered settings := by
    refine ⟨⟨?_, ?_⟩, fun t => xs_of_filtered⟩
    · rintro ⟨t, h⟩
      obtain ⟨rate, f, hr, hf, -⟩ := filtered_eq_ok_iff.1 h
      exact ⟨rate, f, hr, hf⟩
    · rintro ⟨rate, f, hr, hf⟩
      exact ⟨_, filtered_eq_ok_iff.2 ⟨rate, f, hr, hf, rfl⟩⟩

/-! ## The columns of every series -/

/-- **Columns have one length.** Whatever the operations, what is stored for a series are its
columns, and they are equally long; every operation on stored columns ends as on the series, and
meets no index outside a column. An expression over stored columns ends as over the datasets, too;
columns that it is solved for are equally long, and they are what is stored for the series that it
is solved for over the datasets. Operators with a number, functions other than the spectrum, fits
and filters keep the positions, and a sample that is replaced is the only one that changes. No
spectrum, response or coherence fails because its frequencies and values differ in number. -/
theorem columns_have_one_length :
    (∀ (s : Series α) (c : Columns α), Stores s c → c = s.columns ∧ c.xs.length = c.ys.length) ∧
    (∀ (o : Operation α) (s t : Series α) (c d : Columns α), Stores s c → Stores t d →
      o.onColumns c d = Fault.lift ((o.onSeries s t).map Series.columns)) ∧
    (∀ (sources : List (Source α)) (factor : α) (expression : String),
      (∀ p ∈ sources, Stores p.series p.columns) →
      let solved := solve (sources.map Source.dataset) factor expression
      let stored := Columns.solve (sources.map Source.stored) factor expression
      stored = Fault.lift (solved.map Value.stored) ∧
      ∀ c, stored = .ok (.columns c) →
        c.xs.length = c.ys.length ∧ ∃ s, solved = .ok (.series s) ∧ Stores s c) ∧
    (∀ s : Series α, s.KeepsPositions) ∧
    (∀ (s : Series α) (i : Nat) (p : Sample α), s.ReplacesOne i p ∧ ∀ c, Stores s c →
      c.set i p.x p.y = .ok ((s.set i p).1, (s.set i p).2.columns)) ∧
    ∀ (s t : Series α) (c d : Columns α), Stores s c → Stores t d →
      ∀ (options : SpectrumOptions α) (count : Nat) (window : Window) (wrapped : Bool)
        (m n : Nat), let mismatch : Fault α := .error (.lengthMismatch m n)
        c.amplitudeSpectrum options ≠ .error mismatch ∧
        c.frequencyResponse d count window wrapped ≠ .error mismatch ∧
        c.coherence d count window ≠ .error mismatch := by
  refine ⟨fun s c h => ⟨h.eq_columns, h.length_eq⟩, fun o s t c d hs ht => ?_,
    fun sources factor expression h => ⟨Stores.solve_eq h factor expression, fun c hc => ?_⟩,
    Series.keepsPositions, fun s i p => ⟨s.replacesOne i p, fun c h => ?_⟩,
    fun s t c d hs ht options count window wrapped m n => ?_⟩
  · rw [hs.eq_columns, ht.eq_columns, o.onColumns_eq]
  · obtain ⟨s, hs, hstores⟩ := Stores.of_solve h hc
    exact ⟨hstores.length_eq, s, hs, hstores⟩
  · rw [h.eq_columns, s.columns_set]
  · rw [hs.eq_columns, ht.eq_columns, s.columns_amplitudeSpectrum, s.columns_frequencyResponse,
      s.columns_coherence]
    refine ⟨Fault.lift_map_ne fun h => ?_, Fault.lift_map_ne fun h => ?_,
      Fault.lift_map_ne fun h => ?_⟩
    · exact (Series.isSpectrumError_of_amplitudeSpectrum h).ne_lengthMismatch m n rfl
    · exact (isSpectrumError_of_frequencyResponse h).ne_lengthMismatch m n rfl
    · exact (isSpectrumError_of_coherence h).ne_lengthMismatch m n rfl

/-- Four samples from two columns, with their spectrum and the value of an expression over them. -/
theorem columns_have_one_length_four :
    let s : Series Float := ⟨[⟨0, 1⟩, ⟨1, 3⟩, ⟨2, 2⟩, ⟨3, 0⟩]⟩
    let c : Columns Float := ⟨[0, 1, 2, 3], [1, 3, 2, 0]⟩
    let options : SpectrumOptions Float := ⟨.uniform, some 4, 0, true⟩
    Stores s c ∧ c.xs.length = c.ys.length ∧ c.set 4 9 9 = .ok (false, c) ∧
      (∃ t e, s.amplitudeSpectrum options = .ok t ∧ c.amplitudeSpectrum options = .ok e ∧
        Stores t e ∧ e.xs.length = e.ys.length) ∧
      ∃ t e, solve [⟨"a", s⟩] 1 "a^2" = .ok (.series t) ∧
        Columns.solve [⟨"a", c⟩] 1 "a^2" = .ok (.columns e) ∧ Stores t e ∧
        e.xs.length = e.ys.length := by
  intro s c options
  obtain ⟨hlength, hstep, hsolve, -, hset, -⟩ := columns_have_one_length (α := Float)
  have hcolumns : Series.ofColumns [0, 1, 2, 3] [1, 3, 2, 0] = .ok s := rfl
  have hs : Stores s c := .ofColumns hcolumns rfl
  have hp : s.period = .ok 1 := by
    have hdt : (3 - 0 : Float) / ((3 : Nat) : Float) = 1 := by decide +kernel
    show checkSpacing ((3 - 0 : Float) / ((3 : Nat) : Float)) = .ok 1
    rw [hdt]
    exact if_pos (by decide +kernel)
  have hg : options.window.coherentGain 4 = (1 : Float) := by decide +kernel
  obtain ⟨t, ht⟩ : ∃ t, s.amplitudeSpectrum options = .ok t :=
    ⟨_, Series.amplitudeSpectrum_eq_ok_iff.2
      ⟨1, 4, hp, rfl, by rw [hg]; decide, by decide +kernel, by decide +kernel, rfl⟩⟩
  have he : c.amplitudeSpectrum options = .ok t.columns := by
    refine (hstep (.amplitudeSpectrum options) s s c c hs hs).trans ?_
    rw [Operation.onSeries, ht]
    rfl
  have hte : Stores t t.columns := .operation (.amplitudeSpectrum options) hs hs ht he
  obtain ⟨u, hu⟩ : ∃ u, solve [⟨"a", s⟩] 1 "a^2" = .ok (.series u) := by
    let tokens : List (Token Float) :=
      [⟨.dataset 0, "a", 0⟩, ⟨.operator .power, "^", 1⟩, ⟨.number 2, "2", 2⟩]
    have hscan : scan ["a"] .numeric "a^2" = .ok tokens := by with_unfolding_all rfl
    refine ⟨(s.scaleX 1).mapY (Elementary.pow · 2), ?_⟩
    rw [solve, List.map_singleton, hscan]
    rfl
  have hsources : ∀ p ∈ [(⟨"a", s, c⟩ : Source Float)], Stores p.series p.columns := by
    simpa using hs
  obtain ⟨heq, hcolumns⟩ := hsolve _ 1 "a^2" hsources
  have hd : Columns.solve [⟨"a", c⟩] 1 "a^2" = .ok (.columns u.columns) :=
    heq.trans (congrArg (fun r => Fault.lift (Except.map Value.stored r)) hu)
  obtain ⟨hl, u', hu', hstores⟩ := hcolumns _ hd
  exact ⟨hs, (hlength s c hs).2, (hset s 4 ⟨9, 9⟩).2 c hs, ⟨t, _, ht, he, hte, (hlength t _ hte).2⟩,
    u', _, hu', hd, hstores, hl⟩

end SignalCalc
