import SignalCalc.Proofs.Filter.Cascade
import SignalCalc.Proofs.Filter.Construction

/-!
# Filters that hold a steady state

What a filter gives after it has been settled obeys the difference equation (`Obeys`), and the
equation leaves no choice: given the inputs and the values before them, there is one list of outputs
(`Obeys.unique`). So a run is known as soon as a list is found that obeys the equation. For a
constant input this is the constant output that the gain gives, whether the filter is stable or not
(`obeys_constant`): with the past that settling leaves, the equation never leaves the steady state.

Main statement: `DigitalFilter.steady_state_is_held`.
-/

namespace SignalCalc

open DigitalFilter

/-! ## Solutions of the difference equation -/

section Obeys

variable {α : Type} [Zero α] [Neg α] [Add α] [Sub α] [Mul α] {b a us ys zs : List α} {u₀ y₀ : α}

/-- Outputs that are the values of the difference equation over inputs and over themselves, where
two constants stand for the time before. -/
structure Obeys (b a : List α) (u₀ y₀ : α) (us ys : List α) : Prop where
  length_eq : ys.length = us.length
  equation : ∀ n < us.length,
    ys[n]? = some (differenceAt b a (extended u₀ us) (extended y₀ ys) n)

/-- Every output follows from the inputs and from the outputs before it. -/
theorem Obeys.unique (h : Obeys b a u₀ y₀ us ys) (h' : Obeys b a u₀ y₀ us zs) : ys = zs := by
  refine List.ext_getElem? fun n => ?_
  -- The equation at a time asks for earlier outputs only, and those agree by induction.
  induction n using Nat.strong_induction_on with
  | _ n ih =>
    rcases Nat.lt_or_ge n us.length with hn | hn
    · have hpast : ∀ t < (n : Int), extended y₀ ys t = extended y₀ zs t := by
        intro t ht
        rw [extended, extended]
        split
        · rfl
        · rw [List.getD_eq_getElem?_getD, List.getD_eq_getElem?_getD, ih _ (by omega)]
      rw [h.equation n hn, h'.equation n hn, differenceAt_congr (fun _ _ => rfl) hpast]
    · rw [List.getElem?_eq_none (h.length_eq.trans_le hn),
        List.getElem?_eq_none (h'.length_eq.trans_le hn)]

/-- The two signals of a run obey the equation. -/
theorem Run.Tracks.obeys {r : Run α} (h : r.Tracks b a) :
    Obeys b a r.inputSeed r.outputSeed r.inputs r.outputs :=
  ⟨h.length_eq, h.equation⟩

/-- Settled at any time, a filter takes samples and gives what the equation asks for, where the
value that it was settled on and the output that it was given stand for the time before. -/
theorem DigitalFilter.obeys_applyAll [Div α] [BEq α] {f : DigitalFilter α}
    (h : (Run.start f).Tracks f.b f.a) (calls : List (Call α)) (v : α) (us : List α) :
    Obeys f.b f.a v ((f.after calls).settle v).output us
      (((f.after calls).settle v).applyAll us).1 := by
  -- Of the whole run only what follows the settling is left in the signals.
  have ht := Run.tracks_through h (calls ++ [Call.settle v] ++ us.map Call.apply)
  rw [Run.through, List.foldl_append, Run.foldl_apply] at ht
  have hrun : (calls ++ [Call.settle v]).foldl Run.call (Run.start f) =
      (Run.through f calls).call (.settle v) := Run.through_append f calls (.settle v)
  rw [hrun] at ht
  have ho := ht.obeys
  simp only [Run.call, Run.filter_through, List.nil_append] at ho
  exact ho

/-- Calls do not change the coefficients. -/
theorem DigitalFilter.steadyGain_after [Div α] [BEq α] {f : DigitalFilter α}
    (h : (Run.start f).Tracks f.b f.a) (calls : List (Call α)) :
    (f.after calls).steadyGain = f.steadyGain := by
  have ht := Run.tracks_through h calls
  rw [← Run.filter_through, steadyGain, ht.b_eq, ht.a_eq, steadyGain]

omit [Zero α] [Neg α] [Add α] [Sub α] [Mul α] in
/-- A signal that has always had one value. -/
theorem extended_replicate (v : α) (n : Nat) (time : Int) :
    extended v (List.replicate n v) time = v := by
  rw [extended]
  split
  · rfl
  · rw [List.getD_eq_getElem?_getD, List.getElem?_replicate]
    split <;> rfl

end Obeys

/-! ## Constant signals -/

section Exact

variable {α : Type} [Field α]

/-- Without rounding, the equation is a difference of sums. -/
theorem differenceAt_eq_sum (b a : List α) (u y : Int → α) (time : Int) :
    differenceAt b a u y time = (b.zipIdx.map fun c => c.1 * u (time - c.2)).sum -
      (((a.drop 1).zipIdx 1).map fun c => c.1 * y (time - c.2)).sum := by
  rw [differenceAt, total_eq_sum, total_eq_sum]

/-- The equation over constant signals. -/
theorem differenceAt_constant (b a : List α) (u y : α) (time : Int) :
    differenceAt b a (fun _ => u) (fun _ => y) time = total b * u - total (a.drop 1) * y := by
  have h (cs : List α) (first : Nat) (v : α) :
      ((cs.zipIdx first).map fun c => c.1 * v).sum = cs.sum * v :=
    calc ((cs.zipIdx first).map fun c => c.1 * v).sum
        = ((cs.zipIdx first).map Prod.fst).sum * v := List.sum_map_mul_right _ _ _
      _ = cs.sum * v := by rw [List.zipIdx_map_fst]
  rw [differenceAt_eq_sum, h, h, total_eq_sum, total_eq_sum]

variable {b a : List α} {u y : α}

/-- A constant input gives a constant output, if the values before are these constants and the two
are in the ratio of the gain. -/
theorem obeys_constant (ha : a.head? = some 1) (hy : total a * y = total b * u) (n : Nat) :
    Obeys b a u y (List.replicate n u) (List.replicate n y) where
  length_eq := by rw [List.length_replicate, List.length_replicate]
  equation k hk := by
    obtain ⟨feedback, rfl⟩ := List.head?_eq_some_iff.1 ha
    have hu : extended u (List.replicate n u) = fun _ => u := funext (extended_replicate u n)
    have hy' : extended y (List.replicate n y) = fun _ => y := funext (extended_replicate y n)
    have hsplit : total (1 :: feedback) = 1 + total feedback := by
      rw [total_eq_sum, total_eq_sum, List.sum_cons]
    rw [hsplit, add_mul, one_mul] at hy
    rw [List.length_replicate] at hk
    rw [hu, hy', differenceAt_constant, List.drop_one, List.tail_cons, ← hy, add_sub_cancel_right,
      List.getElem?_replicate_of_lt hk]

variable [LinearOrder α]

/-- The output that a filter is given when it is settled. -/
theorem DigitalFilter.output_settle (f : DigitalFilter α) (v : α) :
    (f.settle v).output = v * f.steadyGain := by
  rw [settle, if_pos (isFinite_eq_true _)]

/-- Settled on a constant input, a filter gives the same output for as long as the input lasts. -/
theorem DigitalFilter.applyAll_constant {f : DigitalFilter α} (h : (Run.start f).Tracks f.b f.a)
    (ha : f.a.head? = some 1) (hs : total f.a ≠ 0) (calls : List (Call α)) (v : α) (n : Nat) :
    (((f.after calls).settle v).applyAll (List.replicate n v)).1 =
      List.replicate n (v * f.steadyGain) := by
  have hrun := obeys_applyAll h calls v (List.replicate n v)
  rw [settle_after h] at hrun ⊢
  rw [output_settle] at hrun
  refine hrun.unique (obeys_constant ha ?_ n)
  rw [steadyGain, mul_left_comm, mul_div_cancel₀ _ hs, mul_comm]

variable [IsStrictOrderedRing α] [FloorRing α] [Elementary α] [ExactElementary α]

/-- All coefficients are divided by the same number, which does not change the gain. -/
theorem DigitalFilter.steadyGain_of_ofCoefficients {f : DigitalFilter α}
    (h : ofCoefficients b a = .ok f) :
    f.steadyGain = total b / total a ∧ (total f.a = 0 ↔ total a = 0) := by
  obtain ⟨a₀, feedback, -, rfl, -, hg, rfl⟩ := ofCoefficients_eq_ok_iff.1 h
  have h0 : a₀ ≠ 0 := leading_ne_zero hg
  have hdiv (cs : List α) : total (cs.map (· / a₀)) = total cs / a₀ := by
    simp only [total_eq_sum, div_eq_mul_inv, List.sum_map_mul_right, List.map_id']
  rw [steadyGain, hdiv, hdiv, div_div_div_cancel_right₀ h0, div_eq_zero_iff, or_iff_left h0]
  exact ⟨rfl, Iff.rfl⟩

/-- **A settled filter holds the steady state.** Make a filter of any coefficients that it can be
made of, stable or not, but for a denominator whose coefficients add up to zero; call it in any way,
and then settle it on a constant. As long as this constant goes on, every output is the constant
times the gain, which is the ratio of the sums of the coefficients. -/
theorem DigitalFilter.steady_state_is_held {f : DigitalFilter α} (h : ofCoefficients b a = .ok f)
    (hs : total a ≠ 0) (calls : List (Call α)) (v : α) (n : Nat) :
    let gain := (f.after calls).steadyGain
    gain = total b / total a ∧
      (((f.after calls).settle v).applyAll (List.replicate n v)).1 =
        List.replicate n (v * gain) := by
  intro gain
  have ht := Run.tracks_start h
  obtain ⟨hgain, hzero⟩ := steadyGain_of_ofCoefficients h
  have hsame : gain = f.steadyGain := steadyGain_after ht calls
  rw [hsame]
  exact ⟨hgain, applyAll_constant ht (head?_of_ofCoefficients h) (fun h0 => hs (hzero.1 h0))
    calls v n⟩

/-- A filter with a pole outside the unit circle, not normalized, is settled on two in the middle of
its calls. Its gain is minus three. -/
theorem DigitalFilter.steady_state_is_held_unstable :
    ∃ f : DigitalFilter ℝ, ofCoefficients [2, 4] [2, -6, 2] = .ok f ∧
      total ([2, -6, 2] : List ℝ) ≠ 0 ∧
      (((f.after [.apply 5, .settle 1, .apply 7]).settle 2).applyAll [2, 2, 2]).1 =
        [-6, -6, -6] := by
  obtain ⟨f, h⟩ : ∃ f : DigitalFilter ℝ, ofCoefficients [2, 4] [2, -6, 2] = .ok f := by
    refine (exists_ofCoefficients_iff (List.cons_ne_nil 2 [4])).2 ?_
    rw [roundingError_eq]
    norm_num
  have hs : total ([2, -6, 2] : List ℝ) ≠ 0 := by norm_num [total_eq_sum]
  obtain ⟨hgain, hrun⟩ := steady_state_is_held h hs [.apply 5, .settle 1, .apply 7] 2 3
  have hvalue : (2 : ℝ) * (total [2, 4] / total [2, -6, 2]) = -6 := by norm_num [total_eq_sum]
  rw [hgain, hvalue] at hrun
  exact ⟨f, h, hs, hrun⟩

end Exact

end SignalCalc
