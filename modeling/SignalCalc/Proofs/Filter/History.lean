import SignalCalc.Filter.History

/-!
# Histories as signals without end

A history shows the last values of a signal that goes back for ever. `History.Shows h past` says
that the newest values of the signal `past`, counted back from now, are those that `h` gives. A new
history shows the signal that has always been zero, filling shows a constant one, and pushing shows
the signal with one value more.

Main statement: `History.Shows.push`.
-/

namespace SignalCalc.History

variable {α : Type}

/-- Counting on from an index in the ring passes its end at most once. -/
theorem wrap_eq {head age capacity : Nat} (hh : head < capacity) (ha : age ≤ capacity) :
    (head + age) % capacity =
      if head + age < capacity then head + age else head + age - capacity := by
  split
  · next h => exact Nat.mod_eq_of_lt h
  · next h => rw [Nat.mod_eq_sub_mod (Nat.le_of_not_lt h), Nat.mod_eq_of_lt (by omega)]

/-- The signal with a new value before the values of the past. -/
def pushed (v : α) (past : Nat → α) : Nat → α
  | 0 => v
  | age + 1 => past age

variable [Zero α]

/-- The history gives the newest values of a signal, as many as it has room for. -/
structure Shows (h : History α) (past : Nat → α) : Prop where
  head_lt : h.head = 0 ∨ h.head < h.capacity
  get_eq : ∀ age < h.capacity, h.get age = past age

/-- A ring that holds one value everywhere shows the signal that has always had it. -/
theorem shows_replicate (n : Nat) (v : α) :
    (⟨Array.replicate n v, 0⟩ : History α).Shows fun _ => v := by
  refine ⟨.inl rfl, fun age ha => ?_⟩
  have hl : age % n < n := Nat.mod_lt _ (by simp only [capacity, Array.size_replicate] at ha; omega)
  simp [get, capacity, Array.getD_eq_getD_getElem?, hl]

/-- A new history shows zeros. -/
theorem shows_zeros (n : Nat) : (zeros n : History α).Shows fun _ => 0 := shows_replicate n 0

/-- A history that has been filled shows the value at every age. -/
theorem shows_fill (h : History α) (v : α) : (h.fill v).Shows fun _ => v :=
  shows_replicate h.capacity v

/-- Pushing moves the newest index one place back, so every other value becomes older by one. -/
theorem Shows.push {h : History α} {past : Nat → α} (hs : h.Shows past) (v : α) :
    (h.push v).Shows (pushed v past) := by
  by_cases hc : h.capacity = 0
  · rw [History.push, if_pos hc]
    exact ⟨hs.head_lt, fun age ha => by omega⟩
  have hlt : h.head < h.capacity := by
    rcases hs.head_lt with h0 | hl <;> omega
  -- One place back, with the end of the ring before its start.
  obtain ⟨head, hhead, hback⟩ : ∃ head < h.capacity,
      (h.head + h.capacity - 1) % h.capacity = head ∧
        (head + 1 = h.head ∨ h.head = 0 ∧ head + 1 = h.capacity) := by
    refine ⟨_, Nat.mod_lt _ (by omega), rfl, ?_⟩
    rw [Nat.add_sub_assoc (by omega), wrap_eq hlt (Nat.sub_le _ _)]
    split <;> omega
  have hp : h.push v = ⟨h.values.setIfInBounds head v, head⟩ := by
    rw [History.push, if_neg hc, hback.1]
  have hcap : (⟨h.values.setIfInBounds head v, head⟩ : History α).capacity = h.capacity := by
    rw [← hp, capacity_push]
  rw [hp]
  refine ⟨.inr (hcap ▸ hhead), fun age ha => ?_⟩
  rw [hcap] at ha
  rw [get, hcap, Array.getD_eq_getD_getElem?, Array.getElem?_setIfInBounds]
  cases age with
  | zero =>
    rw [Nat.add_zero, Nat.mod_eq_of_lt hhead, if_pos rfl,
      if_pos (show head < h.values.size from hhead)]
    rfl
  | succ age =>
    have hi : (head + (age + 1)) % h.capacity = (h.head + age) % h.capacity := by
      rw [wrap_eq hhead (by omega), wrap_eq hlt (by omega)]
      split <;> split <;> omega
    have hne : head ≠ (head + (age + 1)) % h.capacity := by
      rw [wrap_eq hhead (by omega)]
      split <;> omega
    rw [if_neg hne, hi, ← Array.getD_eq_getD_getElem?]
    exact hs.get_eq age (by omega)

end SignalCalc.History
