import SignalCalc.Proofs.Series.Columns

/-!
# Causal transforms

A transform of a time history is causal from a count of samples on if it does not look ahead: what
it makes of the first samples, if there are so many of them, are the first samples of what it makes
of the whole history. The integral and the root mean square carry a state from one sample to the
next and nothing back (`take_of_scan`), so they are causal from the start. The derivative gives the
first sample the slope that starts there and has to know the second one.

A causal transform keeps its results when samples are added (`CausalFrom.take_pushAll`), and so
does the loop that writes them over a copy of the values (`CausalFrom.take_columns`). No law of
arithmetic is used, so all of this holds of doubles, of undefined and infinite ones too.

Main statement: `transforms_are_causal`.
-/

namespace SignalCalc

/-- A recursion over a list that gives a value for each element, from the element and from a state
that goes along, gives the first values for the first elements. -/
theorem take_of_scan {β γ τ : Type} (values : τ → List γ → List β) (emit : τ → γ → β)
    (next : τ → γ → τ) (hnil : ∀ t, values t [] = [])
    (hcons : ∀ t c cs, values t (c :: cs) = emit t c :: values (next t c) cs) (t : τ) (cs : List γ)
    (k : Nat) : values t (cs.take k) = (values t cs).take k := by
  induction cs generalizing t k with
  | nil => rw [List.take_nil, hnil, List.take_nil]
  | cons c cs ih =>
    cases k with
    | zero => rw [List.take_zero, List.take_zero, hnil]
    | succ k => rw [List.take_succ_cons, hcons, hcons, List.take_succ_cons, ih]

namespace Series

/-! ## The first samples -/

section First

variable {α : Type} (s : Series α)

/-- The first samples of a series. -/
def take (k : Nat) : Series α := ⟨s.samples.take k⟩

/-- The series with more samples at its end, pushed one by one. -/
def pushAll (later : List (Sample α)) : Series α := later.foldl push s

/-- Samples that are pushed come behind those that are there. -/
theorem samples_pushAll (later : List (Sample α)) :
    (s.pushAll later).samples = s.samples ++ later := by
  induction later generalizing s with
  | nil => exact (List.append_nil _).symm
  | cons p later ih =>
    show ((s.push p).pushAll later).samples = _
    rw [ih, push, List.append_assoc, List.singleton_append]

/-- A series onto which samples are pushed starts with itself. -/
theorem take_pushAll (later : List (Sample α)) : (s.pushAll later).take s.size = s := by
  rw [take, samples_pushAll, size, List.take_left]

end First

end Series

/-- The first entries of both columns. -/
def Columns.take {α : Type} (c : Columns α) (k : Nat) : Columns α := ⟨c.xs.take k, c.ys.take k⟩

namespace Series

/-- The columns of a first part are the first parts of the columns. -/
theorem columns_take {α : Type} (s : Series α) (k : Nat) :
    (s.take k).columns = s.columns.take k := by
  rw [columns, xs, ys, take, List.map_take, List.map_take]
  rfl

/-! ## Causality -/

section Causal

variable {α : Type} {n : Nat} {f : Series α → Series α}

/-- The transform of the first samples, at least `n` of them, are the first samples of the
transform. -/
def CausalFrom (n : Nat) (f : Series α → Series α) : Prop :=
  ∀ s k, n ≤ k → f (s.take k) = (f s).take k

/-- Samples that are added do not change what has been there. -/
theorem CausalFrom.take_pushAll (hf : CausalFrom n f) {s : Series α} (hs : n ≤ s.size)
    (later : List (Sample α)) : (f (s.pushAll later)).take s.size = f s := by
  rw [← hf _ _ hs, s.take_pushAll]

/-- A loop that does to the columns what a causal transform does to the series is causal. -/
theorem CausalFrom.take_columns [Zero α] [BEq α] {g : Columns α → Except (Fault α) (Columns α)}
    (hf : CausalFrom n f) (hg : ∀ s, g s.columns = .ok (f s).columns) (s : Series α) {k : Nat}
    (hk : n ≤ k) : g (s.columns.take k) = .ok ((f s).columns.take k) := by
  rw [← columns_take, hg, hf s k hk, columns_take]

end Causal

section Transforms

variable {α : Type} [Zero α]

/-- The derivative is causal from two samples on. The slope of a single sample is not known. -/
theorem causalFrom_derivative [Sub α] [Div α] :
    CausalFrom 2 (derivative : Series α → Series α) := by
  intro s k hk
  obtain ⟨k, rfl⟩ := Nat.exists_eq_add_of_le' hk
  rw [derivative, derivative, take, take]
  rcases s.samples with _ | ⟨first, _ | ⟨second, rest⟩⟩
  · simp
  · simp
  · have hslopes := take_of_scan slopesAfter
      (fun previous p => ⟨p.x, slope previous p⟩) (fun _ p => p) (fun _ => rfl)
      (fun _ _ _ => rfl) first (second :: rest) (k + 1)
    rw [List.take_succ_cons] at hslopes
    rw [List.take_succ_cons, List.take_succ_cons, List.take_succ_cons, ← hslopes]

/-- The integral is causal. -/
theorem causalFrom_integral [Add α] [Sub α] [Mul α] [OfScientific α] :
    CausalFrom 0 (integral : Series α → Series α) := by
  intro s k _
  rw [integral, integral, take, take]
  cases hs : s.samples with
  | nil => simp [empty]
  | cons first rest =>
    cases k with
    | zero => rfl
    | succ k =>
      have hareas := take_of_scan (fun t : Sample α × α => areasAfter t.1 t.2)
        (fun t p => ⟨p.x, t.2 + trapezoid t.1 p⟩) (fun t p => (p, t.2 + trapezoid t.1 p))
        (fun _ => rfl) (fun _ _ _ => rfl) (first, 0) rest k
      rw [List.take_succ_cons, List.take_succ_cons, ← hareas]

/-- The running root mean square is causal. -/
theorem causalFrom_rms [Add α] [Mul α] [Div α] [NatCast α] [Elementary α] :
    CausalFrom 0 (rms : Series α → Series α) := by
  intro s k _
  have hsums := take_of_scan (fun t : Nat × α => rmsAfter t.1 t.2)
    (fun t p => ⟨p.x, Elementary.sqrt ((t.2 + p.y * p.y) / ((t.1 + 1 : Nat) : α))⟩)
    (fun t p => (t.1 + 1, t.2 + p.y * p.y)) (fun _ => rfl) (fun _ _ _ => rfl) (0, 0) s.samples k
  exact congrArg Series.mk hsums

variable [BEq α] [Add α] [Sub α] [Mul α] [Div α] [NatCast α] [OfScientific α] [Elementary α]

/-- **The calculus transforms are causal.** The integral and the root mean square of the first
samples of a series, however many, are the first samples of those of the whole series; the same
holds of the derivative from two samples on. So pushing samples does not change what has been there.
The loops that write the results over a copy of the values end without a fault and are causal, too.
-/
theorem transforms_are_causal (s : Series α) :
    (∀ k, (s.take k).integral = s.integral.take k ∧ (s.take k).rms = s.rms.take k ∧
      (2 ≤ k → (s.take k).derivative = s.derivative.take k)) ∧
    (∀ later, (s.pushAll later).integral.take s.size = s.integral ∧
      (s.pushAll later).rms.take s.size = s.rms ∧
      (2 ≤ s.size → (s.pushAll later).derivative.take s.size = s.derivative)) ∧
    s.columns.integral = .ok s.integral.columns ∧ s.columns.rms = .ok s.rms.columns ∧
      s.columns.derivative = .ok s.derivative.columns ∧
      ∀ k, (s.columns.take k).integral = .ok (s.integral.columns.take k) ∧
        (s.columns.take k).rms = .ok (s.rms.columns.take k) ∧
        (2 ≤ k → (s.columns.take k).derivative = .ok (s.derivative.columns.take k)) :=
  ⟨fun k => ⟨causalFrom_integral s k k.zero_le, causalFrom_rms s k k.zero_le,
      causalFrom_derivative s k⟩,
    fun later => ⟨causalFrom_integral.take_pushAll s.size.zero_le later,
      causalFrom_rms.take_pushAll s.size.zero_le later,
      fun hs => causalFrom_derivative.take_pushAll hs later⟩,
    s.columns_integral, s.columns_rms, s.columns_derivative,
    fun k => ⟨causalFrom_integral.take_columns (fun t => t.columns_integral) s k.zero_le,
      causalFrom_rms.take_columns (fun t => t.columns_rms) s k.zero_le,
      fun hk => causalFrom_derivative.take_columns (fun t => t.columns_derivative) s hk⟩⟩

end Transforms

/-- An infinite and an undefined value come in. The first two results stay as they are, but with one
sample the derivative is zero and not the slope. -/
theorem transforms_are_causal_undefined :
    let s : Series Float := ⟨[⟨0, 3⟩, ⟨2, 4⟩]⟩
    let later : List (Sample Float) := [⟨3, 1 / 0⟩, ⟨4, 0 / 0⟩]
    2 ≤ s.size ∧ (s.pushAll later).size = 4 ∧
      (s.pushAll later).integral.take 2 = s.integral ∧ s.integral.ys = [0, 7] ∧
      (s.pushAll later).integral.ys = [0, 7, 1 / 0, 0 / 0] ∧
      (s.pushAll later).derivative.take 2 = s.derivative ∧ s.derivative.ys = [0.5, 0.5] ∧
      (s.take 1).derivative.ys = [0] := by
  intro s later
  have hs : 2 ≤ s.size := Nat.le_refl 2
  obtain ⟨-, hlater, -⟩ := transforms_are_causal s
  obtain ⟨hintegral, -, hderivative⟩ := hlater later
  exact ⟨hs, rfl, hintegral, by decide +kernel, by decide +kernel, hderivative hs,
    by decide +kernel, by decide +kernel⟩

end Series

end SignalCalc
