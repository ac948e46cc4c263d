import Mathlib.Data.List.Induction
import SignalCalc.Filter.Digital
import SignalCalc.Proofs.Filter.History

/-!
# The difference equation over whole runs

A digital filter is asked to settle on a constant input and to take samples, in any order. Since it
was last settled it has taken some inputs and given as many outputs; both signals go back for ever
with the constant values that they were settled on (`extended`), which are zeros for a new filter.
Every output is the difference equation over these two signals (`differenceAt`): the two rings of
the filter, whose sizes are those of its lists of coefficients, lose nothing that the equation
needs.

The invariant of a run is `Run.Tracks`: what the rings show and what the equation has given so far.

Main statement: `run_is_difference_equation`.
-/

namespace SignalCalc

/-- What can be asked of a filter: to settle on a constant input, or to take one more sample. -/
inductive Call (α : Type) where
  | settle (v : α)
  | apply (u : α)

/-- A signal that has had one value for ever and then the listed ones, oldest first, from the time
zero on. -/
def extended {α : Type} (seed : α) (xs : List α) (time : Int) : α :=
  if time < 0 then seed else xs.getD time.toNat seed

/-- The value of the difference equation at a time, its terms by ascending powers of the delay. -/
def differenceAt {α : Type} [Zero α] [Neg α] [Add α] [Sub α] [Mul α] (b a : List α)
    (u y : Int → α) (time : Int) : α :=
  total (b.zipIdx.map fun (c, k) => c * u (time - k)) -
    total (((a.drop 1).zipIdx 1).map fun (c, k) => c * y (time - k))

/-- The equation at a time asks for inputs up to then and for earlier outputs. -/
theorem differenceAt_congr {α : Type} [Zero α] [Neg α] [Add α] [Sub α] [Mul α] {b a : List α}
    {u u' y y' : Int → α} {time : Int} (hu : ∀ t ≤ time, u t = u' t)
    (hy : ∀ t < time, y t = y' t) :
    differenceAt b a u y time = differenceAt b a u' y' time := by
  have hb : b.zipIdx.map (fun (c, k) => c * u (time - k)) =
      b.zipIdx.map fun (c, k) => c * u' (time - k) :=
    List.map_congr_left fun p _ => congrArg (p.1 * ·) (hu _ (by omega))
  have ha : ((a.drop 1).zipIdx 1).map (fun (c, k) => c * y (time - k)) =
      ((a.drop 1).zipIdx 1).map fun (c, k) => c * y' (time - k) := by
    refine List.map_congr_left fun p hp => congrArg (p.1 * ·) (hy _ ?_)
    have := List.le_snd_of_mem_zipIdx hp
    omega
  rw [differenceAt, differenceAt, hb, ha]

/-! ## Signals with a past -/

section Extended

variable {α : Type} {seed : α} {xs : List α}

/-- What is added later does not change the past. -/
theorem extended_append {time : Int} (ht : time < xs.length) (ys : List α) :
    extended seed (xs ++ ys) time = extended seed xs time := by
  unfold extended
  split
  · rfl
  · rw [List.getD_eq_getElem?_getD, List.getD_eq_getElem?_getD,
      List.getElem?_append_left (by omega)]

/-- Counted back from the newest value, as a history does. -/
theorem extended_newest (age : Nat) :
    extended seed xs ((xs.length : Int) - 1 - age) = xs.reverse.getD age seed := by
  unfold extended
  split
  · next h =>
    rw [List.getD_eq_getElem?_getD, List.getElem?_eq_none (by rw [List.length_reverse]; omega)]
    rfl
  · next h =>
    have hi : ((xs.length : Int) - 1 - age).toNat = xs.length - 1 - age := by omega
    rw [hi, List.getD_eq_getElem?_getD, List.getD_eq_getElem?_getD,
      List.getElem?_reverse (by omega)]

/-- What is pushed is the newest entry of the list. -/
theorem pushed_reverse (u : α) :
    (History.pushed u fun age => xs.reverse.getD age seed) =
      fun age => (xs ++ [u]).reverse.getD age seed := by
  funext age
  rw [List.reverse_append, List.reverse_singleton, List.singleton_append]
  cases age <;> rfl

end Extended

namespace DigitalFilter

variable {α : Type} [Zero α] [Neg α] [Add α] [Mul α]

/-- A sum over a history that has room for it is the sum over the signal that it shows. -/
theorem weighted_eq {cs : List α} {h : History α} {past : Nat → α} (hs : h.Shows past)
    (hc : cs.length ≤ h.capacity) :
    weighted cs h = total (cs.zipIdx.map fun (c, k) => c * past k) := by
  rw [weighted]
  refine congrArg total (List.map_congr_left ?_)
  rintro ⟨c, k⟩ hk
  have hl : k < cs.length := (List.getElem?_eq_some_iff.1 (List.mem_zipIdx_iff_getElem?.1 hk)).1
  show c * h.get k = c * past k
  rw [hs.get_eq k (by omega)]

variable [Sub α] [Div α] [BEq α]

/-- The filter after a call. -/
def call (f : DigitalFilter α) : Call α → DigitalFilter α
  | .settle v => f.settle v
  | .apply u => f.apply u

/-- The filter after a list of calls. -/
def after (f : DigitalFilter α) (calls : List (Call α)) : DigitalFilter α := calls.foldl call f

/-- Calls are made one after the other. -/
theorem after_append (f : DigitalFilter α) (calls later : List (Call α)) :
    f.after (calls ++ later) = (f.after calls).after later := by
  rw [after, List.foldl_append]
  rfl

end DigitalFilter

/-- A filter in the middle of its calls, with what has gone in and come out since it was last
settled, oldest first, and the values that stand for the time before. -/
structure Run (α : Type) where
  filter : DigitalFilter α
  inputSeed : α
  outputSeed : α
  inputs : List α
  outputs : List α

namespace Run

section Tracks

variable {α : Type} [Zero α] [Neg α] [Add α] [Sub α] [Mul α] {b a : List α} {r : Run α}

/-- What holds in a run of a filter with the given coefficients: the rings show the two signals,
and every output so far has been the value of the difference equation. -/
structure Tracks (b a : List α) (r : Run α) : Prop where
  b_eq : r.filter.b = b
  a_eq : r.filter.a = a
  capacity_inputs : r.filter.inputs.capacity = b.length
  capacity_outputs : r.filter.outputs.capacity = a.length - 1
  inputs : r.filter.inputs.Shows fun age => r.inputs.reverse.getD age r.inputSeed
  outputs : r.filter.outputs.Shows fun age => r.outputs.reverse.getD age r.outputSeed
  length_eq : r.outputs.length = r.inputs.length
  output_eq : r.filter.output = r.outputs.getLastD r.outputSeed
  equation : ∀ n < r.inputs.length, r.outputs[n]? = some (differenceAt b a
    (extended r.inputSeed r.inputs) (extended r.outputSeed r.outputs) n)

/-- The next output is the next value of the difference equation. -/
theorem Tracks.output_apply (h : r.Tracks b a) (u : α) :
    (r.filter.apply u).output = differenceAt b a (extended r.inputSeed (r.inputs ++ [u]))
      (extended r.outputSeed r.outputs) r.inputs.length := by
  have hi := h.inputs.push u
  rw [pushed_reverse] at hi
  have hb : DigitalFilter.weighted b (r.filter.inputs.push u) =
      total (b.zipIdx.map fun (c, k) =>
        c * extended r.inputSeed (r.inputs ++ [u]) (r.inputs.length - k)) := by
    rw [DigitalFilter.weighted_eq hi (by simp [h.capacity_inputs])]
    refine congrArg total (List.map_congr_left fun p _ => congrArg (p.1 * ·) ?_)
    rw [← extended_newest, List.length_append, List.length_singleton]
    congr 1
    omega
  have ha : DigitalFilter.weighted (a.drop 1) r.filter.outputs =
      total (((a.drop 1).zipIdx 1).map fun (c, k) =>
        c * extended r.outputSeed r.outputs (r.inputs.length - k)) := by
    rw [DigitalFilter.weighted_eq h.outputs (by simp [h.capacity_outputs]),
      List.zipIdx_succ, List.map_map]
    refine congrArg total (List.map_congr_left fun p _ => congrArg (p.1 * ·) ?_)
    rw [← extended_newest, h.length_eq]
    congr 1
    omega
  rw [differenceAt, ← hb, ← ha, ← h.b_eq, ← h.a_eq]
  rfl

end Tracks

/-! ## Calls -/

variable {α : Type} [Zero α] [Neg α] [Add α] [Sub α] [Mul α] [Div α] [BEq α]

/-- A new filter has zeros in its past. -/
def start (f : DigitalFilter α) : Run α := ⟨f, 0, 0, [], []⟩

/-- Settling starts the signals anew: the input has had the given value for ever, and the output has
had that times the gain, or zero without a finite gain. A sample adds to both signals. -/
def call (r : Run α) : Call α → Run α
  | .settle v =>
    let gain := r.filter.steadyGain
    ⟨r.filter.settle v, v, if isFinite gain then v * gain else 0, [], []⟩
  | .apply u =>
    let next := r.filter.apply u
    { r with filter := next, inputs := r.inputs ++ [u], outputs := r.outputs ++ [next.output] }

/-- The run of a filter through a list of calls. -/
def through (f : DigitalFilter α) (calls : List (Call α)) : Run α := calls.foldl call (start f)

/-- A run goes on with its last call. -/
theorem through_append (f : DigitalFilter α) (calls : List (Call α)) (c : Call α) :
    through f (calls ++ [c]) = (through f calls).call c := by
  rw [through, List.foldl_append]
  rfl

variable {b a : List α} {r : Run α}

/-- Settling fills both rings, as if the signals had had their values for ever. -/
theorem Tracks.settle (h : r.Tracks b a) (v : α) : (r.call (.settle v)).Tracks b a where
  b_eq := h.b_eq
  a_eq := h.a_eq
  capacity_inputs := (History.capacity_fill _ v).trans h.capacity_inputs
  capacity_outputs := (History.capacity_fill _ _).trans h.capacity_outputs
  inputs := History.shows_fill r.filter.inputs v
  outputs := History.shows_fill r.filter.outputs _
  length_eq := rfl
  output_eq := rfl
  equation := nofun

/-- An output is the value of the difference equation, and both rings move on. -/
theorem Tracks.apply (h : r.Tracks b a) (u : α) : (r.call (.apply u)).Tracks b a where
  b_eq := h.b_eq
  a_eq := h.a_eq
  capacity_inputs := (History.capacity_push _ u).trans h.capacity_inputs
  capacity_outputs := (History.capacity_push _ _).trans h.capacity_outputs
  inputs := by
    have hi := h.inputs.push u
    rw [pushed_reverse] at hi
    exact hi
  outputs := by
    have ho := h.outputs.push (r.filter.apply u).output
    rw [pushed_reverse] at ho
    exact ho
  length_eq := by
    show (r.outputs ++ [_]).length = (r.inputs ++ [u]).length
    rw [List.length_append, List.length_append, h.length_eq]
    rfl
  output_eq := List.getLastD_concat.symm
  equation n hn := by
    show (r.outputs ++ [(r.filter.apply u).output])[n]? = some (differenceAt b a
      (extended r.inputSeed (r.inputs ++ [u]))
      (extended r.outputSeed (r.outputs ++ [(r.filter.apply u).output])) n)
    have hl := h.length_eq
    have hn : n < r.inputs.length + 1 := by
      have : n < (r.inputs ++ [u]).length := hn
      rwa [List.length_append] at this
    -- What has been added at the end is not seen by the equation at earlier times.
    have hy : ∀ t < (n : Int), extended r.outputSeed r.outputs t =
        extended r.outputSeed (r.outputs ++ [(r.filter.apply u).output]) t :=
      fun t ht => (extended_append (by omega) _).symm
    rcases Nat.lt_or_ge n r.inputs.length with hlt | hge
    · rw [List.getElem?_append_left (by omega), h.equation n hlt]
      refine congrArg some (differenceAt_congr (fun t ht => ?_) hy)
      exact (extended_append (by omega) _).symm
    · have hlast : n = r.inputs.length := by omega
      have ho : (r.filter.apply u).output = differenceAt b a
          (extended r.inputSeed (r.inputs ++ [u]))
          (extended r.outputSeed (r.outputs ++ [(r.filter.apply u).output])) n := by
        refine (h.output_apply u).trans ?_
        rw [← hlast]
        exact differenceAt_congr (fun t ht => rfl) hy
      rw [hlast, ← hl, List.getElem?_concat_length, hl, ← hlast, ← ho]

/-- **One call** keeps what holds in a run. -/
theorem Tracks.call (h : r.Tracks b a) (c : Call α) : (r.call c).Tracks b a := by
  cases c with
  | settle v => exact h.settle v
  | apply u => exact h.apply u

/-- **A whole run**, by induction on the calls. -/
theorem tracks_through {f : DigitalFilter α} (h : (start f).Tracks b a) (calls : List (Call α)) :
    (through f calls).Tracks b a := by
  induction calls using List.reverseRecOn with
  | nil => exact h
  | append_singleton calls c ih =>
    rw [through_append]
    exact ih.call c

/-- The run has the filter that the calls lead to. -/
theorem filter_through (f : DigitalFilter α) (calls : List (Call α)) :
    (through f calls).filter = f.after calls := by
  induction calls using List.reverseRecOn with
  | nil => rfl
  | append_singleton calls c ih =>
    rw [through_append, DigitalFilter.after_append, ← ih]
    cases c <;> rfl

/-- A new filter is the start of a run. -/
theorem tracks_start [One α] [NatCast α] [LE α] [DecidableLE α] [Elementary α]
    {f : DigitalFilter α} (h : DigitalFilter.ofCoefficients b a = .ok f) :
    (start f).Tracks f.b f.a := by
  obtain ⟨a₀, feedback, -, rfl, -, -, rfl⟩ := DigitalFilter.ofCoefficients_eq_ok_iff.1 h
  exact {
    b_eq := rfl
    a_eq := rfl
    capacity_inputs := by simp [start]
    capacity_outputs := by simp [start]
    inputs := History.shows_zeros _
    outputs := History.shows_zeros _
    length_eq := rfl
    output_eq := rfl
    equation := nofun }

end Run

namespace DigitalFilter

variable {α : Type} [Zero α] [Neg α] [Add α] [Sub α] [Mul α] [Div α] [BEq α]

/-- Settling leaves nothing of the past: it keeps the coefficients and the sizes of the rings, and
calls do not change those. -/
theorem settle_after {f : DigitalFilter α} (h : (Run.start f).Tracks f.b f.a)
    (calls : List (Call α)) (v : α) : (f.after calls).settle v = f.settle v := by
  have ht := Run.tracks_through h calls
  rw [← Run.filter_through]
  generalize Run.through f calls = r at ht
  have hi : r.filter.inputs.capacity = f.inputs.capacity :=
    ht.capacity_inputs.trans h.capacity_inputs.symm
  have ho : r.filter.outputs.capacity = f.outputs.capacity :=
    ht.capacity_outputs.trans h.capacity_outputs.symm
  simp only [settle, steadyGain, History.fill, ht.b_eq, ht.a_eq, hi, ho]
  rfl

/-- The state says which call came last. -/
theorem state_after {f : DigitalFilter α} (h : f.state = .uninitialized)
    (calls : List (Call α)) :
    (f.after calls).state =
      match calls.getLast? with
      | none => .uninitialized
      | some (.settle _) => .initialized
      | some (.apply _) => .running := by
  rcases List.eq_nil_or_concat calls with rfl | ⟨calls, c, rfl⟩
  · exact h
  · rw [List.concat_eq_append, after_append, List.getLast?_concat]
    cases c <;> rfl

/-- **The filter is the difference equation over whole runs.** Make a filter of any coefficients
that it can be made of, and call it in any way. Every output since it was last settled is the value
of the difference equation over the inputs and outputs since then and the constant values before
them. Whatever came before the last settling has no effect. The output is the last one that was
given, or the one that it was settled on, and the state says which call came last. -/
theorem run_is_difference_equation [One α] [NatCast α] [LE α] [DecidableLE α] [Elementary α]
    {b a : List α} {f : DigitalFilter α} (h : ofCoefficients b a = .ok f)
    (calls : List (Call α)) :
    let run := Run.through f calls
    (∃ a₀, a.head? = some a₀ ∧ f.b = b.map (· / a₀) ∧ f.a = a.map (· / a₀)) ∧
      run.filter = f.after calls ∧
      run.outputs.length = run.inputs.length ∧
      (∀ n < run.inputs.length, run.outputs[n]? = some (differenceAt f.b f.a
        (extended run.inputSeed run.inputs) (extended run.outputSeed run.outputs) n)) ∧
      (∀ calls' v later,
        f.after (calls ++ .settle v :: later) = f.after (calls' ++ .settle v :: later)) ∧
      run.filter.output = run.outputs.getLastD run.outputSeed ∧
      run.filter.state =
        match calls.getLast? with
        | none => .uninitialized
        | some (.settle _) => .initialized
        | some (.apply _) => .running := by
  intro run
  have hs := Run.tracks_start h
  have ht := Run.tracks_through hs calls
  have hf : run.filter = f.after calls := Run.filter_through f calls
  obtain ⟨a₀, feedback, -, rfl, -, -, rfl⟩ := ofCoefficients_eq_ok_iff.1 h
  refine ⟨⟨a₀, rfl, rfl, rfl⟩, hf, ht.length_eq, ht.equation, fun calls' v later => ?_,
    ht.output_eq, ?_⟩
  · rw [after_append, after_append]
    show ((after _ calls).settle v).after later = ((after _ calls').settle v).after later
    rw [settle_after hs, settle_after hs]
  · rw [hf]
    exact state_after rfl calls

/-- A filter with feedback, not normalized, is settled on four in the middle of its calls. Its gain
is two, so the output has been eight for ever, and half of it is left in the next one. -/
theorem run_is_difference_equation_feedback :
    ∃ f : DigitalFilter Float, ofCoefficients [2] [2, -1] = .ok f ∧
      let run := Run.through f [.apply 3, .settle 4, .apply 1, .apply 0]
      run.inputs = [1, 0] ∧ run.outputs = [5, 2.5] ∧ run.filter.output = 2.5 ∧
      run.filter.state = .running ∧
      differenceAt f.b f.a (extended 4 [1, 0]) (extended 8 [5, 2.5]) 1 = 2.5 := by
  let calls : List (Call Float) := [.apply 3, .settle 4, .apply 1, .apply 0]
  obtain ⟨f, h, hy, hseed⟩ : ∃ f : DigitalFilter Float, ofCoefficients [2] [2, -1] = .ok f ∧
      (Run.through f calls).outputs = [5, 2.5] ∧ (Run.through f calls).outputSeed = 8 :=
    ⟨_, rfl, by decide +kernel, by decide +kernel⟩
  obtain ⟨-, -, -, he, -, ho, hs⟩ := run_is_difference_equation h calls
  have hn : 1 < (Run.through f calls).inputs.length := Nat.lt_add_one 1
  have he := he 1 hn
  rw [hy, hseed] at he
  rw [hy] at ho
  exact ⟨f, h, rfl, hy, ho, hs, (Option.some.inj he).symm⟩

end DigitalFilter

end SignalCalc
