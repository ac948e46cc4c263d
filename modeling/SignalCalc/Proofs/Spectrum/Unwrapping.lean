import Mathlib.Tactic.Linarith
import SignalCalc.Proofs.Exact
import SignalCalc.Spectrum.Response

/-!
# Phases without jumps

A phase goes on from the previous result, moved by the offset so far and by as many whole turns as
bring the step to at most half a turn (`exists_turnOffset_eq`), whichever way and however far the
phase has jumped. So the offset is a number of whole turns all along. Where the steps are at most
half a turn already, no turn is ever added.

Main statement: `unwrapped_phases_are_continuous`.
-/

namespace SignalCalc

/-- Two phases that differ by whole turns. -/
def TurnsApart {α : Type} [Ring α] (p q : α) : Prop := ∃ turns : ℤ, q = p + 360 * turns

/-- Two phases that differ by at most half a turn. -/
def WithinHalfTurn {α : Type} [Ring α] [LinearOrder α] (p q : α) : Prop := |q - p| ≤ 180

variable {α : Type} [Field α] [LinearOrder α] [IsStrictOrderedRing α] [FloorRing α]

/-- The whole turns in what a step has more than half a turn, rounded up, leave at most half a turn
of it. -/
theorem abs_sub_turns_le (step : α) : |step - 360 * (⌈(step - 180) / 360⌉ : ℤ)| ≤ 180 := by
  have hlow : (step - 180) / 360 ≤ (⌈(step - 180) / 360⌉ : ℤ) := Int.le_ceil _
  have hhigh : ((⌈(step - 180) / 360⌉ : ℤ) : α) < (step - 180) / 360 + 1 := Int.ceil_lt_add_one _
  rw [div_le_iff₀ (by norm_num)] at hlow
  rw [← sub_lt_iff_lt_add, lt_div_iff₀ (by norm_num)] at hhigh
  rw [abs_le]
  constructor <;> linarith

variable [Elementary α] [ExactElementary α]

/-! ## One phase -/

/-- The offset changes by whole turns, after which the step is at most half a turn. It does not
change if the step is that small before. -/
theorem exists_turnOffset_eq (offset previous phase : α) :
    ∃ turns : ℤ, turnOffset offset previous phase = offset + 360 * turns ∧
      WithinHalfTurn previous (phase + turnOffset offset previous phase) ∧
      (WithinHalfTurn previous (phase + offset) → turns = 0) := by
  set step := phase + offset - previous with hstep
  have heq : turnOffset offset previous phase =
      if 180 < step then offset - 360 * (⌈(step - 180) / 360⌉ : ℤ)
      else if step < -180 then offset + 360 * (⌈(-step - 180) / 360⌉ : ℤ) else offset := by
    norm_num [turnOffset, ExactElementary.ceil_eq, hstep]
  have hmoved (offset' : α) : phase + offset' - previous = step + (offset' - offset) := by
    rw [hstep]
    ring
  simp only [WithinHalfTurn, hmoved, heq, sub_self, add_zero]
  -- The step is too great upwards, too great downwards, or small enough.
  split
  · next h =>
    refine ⟨-⌈(step - 180) / 360⌉, ?_, ?_,
      fun hle => absurd ((le_abs_self step).trans hle) h.not_ge⟩
    · rw [Int.cast_neg, mul_neg, sub_eq_add_neg]
    · rw [sub_sub_cancel_left, ← sub_eq_add_neg]
      exact abs_sub_turns_le step
  · split
    · next h =>
      refine ⟨⌈(-step - 180) / 360⌉, rfl, ?_,
        fun hle => absurd (neg_le_of_abs_le hle) h.not_ge⟩
      rw [add_sub_cancel_left, ← abs_neg, neg_add']
      exact abs_sub_turns_le (-step)
    · next h h' =>
      refine ⟨0, by rw [Int.cast_zero, mul_zero, add_zero], ?_, fun _ => rfl⟩
      rw [sub_self, add_zero]
      exact abs_le.2 ⟨not_lt.1 h', not_lt.1 h⟩

/-! ## All phases -/

/-- Behind an offset of whole turns every phase is moved by whole turns. -/
theorem turnsApart_unwrapAfter (turns : ℤ) (previous : α) (phases : List α) :
    List.Forall₂ TurnsApart phases (unwrapAfter (360 * turns) previous phases) := by
  induction phases generalizing turns previous with
  | nil => exact .nil
  | cons phase phases ih =>
    obtain ⟨more, heq, -⟩ := exists_turnOffset_eq (360 * (turns : α)) previous phase
    rw [← mul_add, ← Int.cast_add] at heq
    rw [unwrapAfter, heq]
    exact .cons ⟨turns + more, rfl⟩ (ih (turns + more) _)

/-- From the result before them on, the results go in steps of at most half a turn. -/
theorem isChain_unwrapAfter (offset previous : α) (phases : List α) :
    (previous :: unwrapAfter offset previous phases).IsChain WithinHalfTurn := by
  induction phases generalizing offset previous with
  | nil => exact .singleton previous
  | cons phase phases ih =>
    obtain ⟨-, -, hstep, -⟩ := exists_turnOffset_eq offset previous phase
    exact .cons_cons hstep (ih _ _)

/-- Without an offset, phases that go in such steps stay as they are. -/
theorem unwrapAfter_of_isChain {previous : α} {phases : List α}
    (h : (previous :: phases).IsChain WithinHalfTurn) : unwrapAfter 0 previous phases = phases := by
  induction phases generalizing previous with
  | nil => rfl
  | cons phase phases ih =>
    obtain ⟨hstep, hrest⟩ := List.isChain_cons_cons.1 h
    obtain ⟨turns, heq, -, hzero⟩ := exists_turnOffset_eq 0 previous phase
    rw [hzero (by rwa [add_zero]), Int.cast_zero, mul_zero, add_zero] at heq
    rw [unwrapAfter, heq, add_zero, ih hrest]

/-- Unwrapped phases do not step over half a turn. -/
theorem isChain_unwrapPhase (phases : List α) : (unwrapPhase phases).IsChain WithinHalfTurn := by
  cases phases with
  | nil => exact .nil
  | cons phase phases => exact isChain_unwrapAfter 0 phase phases

/-- Phases that do not step over half a turn are left as they are. -/
theorem unwrapPhase_of_isChain {phases : List α} (h : phases.IsChain WithinHalfTurn) :
    unwrapPhase phases = phases := by
  cases phases with
  | nil => rfl
  | cons phase phases => rw [unwrapPhase, unwrapAfter_of_isChain h]

/-- **Unwrapped phases have no jumps.** Of any list of phases the first is kept and every other one
is moved by whole turns, so that each step is at most half a turn. Once they are so, they stay as
they are. -/
theorem unwrapped_phases_are_continuous (phases : List α) :
    (unwrapPhase phases).head? = phases.head? ∧
      List.Forall₂ TurnsApart phases (unwrapPhase phases) ∧
      (unwrapPhase phases).IsChain WithinHalfTurn ∧
      unwrapPhase (unwrapPhase phases) = unwrapPhase phases := by
  have hchain := isChain_unwrapPhase phases
  refine ⟨?_, ?_, hchain, unwrapPhase_of_isChain hchain⟩
  · cases phases <;> rfl
  · cases phases with
    | nil => exact .nil
    | cons phase phases =>
      have hrest := turnsApart_unwrapAfter 0 phase phases
      rw [Int.cast_zero, mul_zero] at hrest
      exact .cons ⟨0, by rw [Int.cast_zero, mul_zero, add_zero]⟩ hrest

/-- A step of exactly half a turn each way, which stays, a whole turn back and three forward. -/
theorem unwrapped_phases_are_continuous_turns :
    let phases : List ℝ := [10, 190, -170, 1000, 820]
    let unwrapped : List ℝ := [10, 190, 190, 280, 100]
    unwrapPhase phases = unwrapped ∧ List.Forall₂ TurnsApart phases unwrapped ∧
      unwrapped.IsChain WithinHalfTurn ∧ unwrapPhase unwrapped = unwrapped := by
  intro phases unwrapped
  have hunwrapped : unwrapPhase phases = unwrapped := by
    have hone : ⌈(1 / 2 : ℝ)⌉ = 1 := by norm_num [Int.ceil_eq_iff]
    have hthree : ⌈(11 / 4 : ℝ)⌉ = 3 := by norm_num [Int.ceil_eq_iff]
    norm_num [phases, unwrapped, unwrapPhase, unwrapAfter, turnOffset, ExactElementary.ceil_eq,
      hone, hthree]
  obtain ⟨-, hturns, hchain, hagain⟩ := unwrapped_phases_are_continuous phases
  rw [hunwrapped] at hturns hchain hagain
  exact ⟨hunwrapped, hturns, hchain, hagain⟩

end SignalCalc
