/-!
# Histories of fixed capacity

A `History` keeps the last values of a signal in a ring: a new value takes the place of the oldest
one, and `History.get` counts back from the newest. A history without capacity keeps nothing.
-/

namespace SignalCalc

/-- A ring of values with the index of the newest one. -/
structure History (α : Type) where
  values : Array α
  head : Nat

namespace History

variable {α : Type}

def capacity (h : History α) : Nat := h.values.size

/-- A history of zeros. -/
def zeros [Zero α] (capacity : Nat) : History α := ⟨Array.replicate capacity 0, 0⟩

/-- The history in which one value has always been pushed. -/
def fill (h : History α) (v : α) : History α := ⟨Array.replicate h.capacity v, 0⟩

/-- A new value in the place of the oldest one. -/
def push (h : History α) (v : α) : History α :=
  if h.capacity = 0 then h
  else
    let head := (h.head + h.capacity - 1) % h.capacity
    ⟨h.values.setIfInBounds head v, head⟩

/-- The value that was pushed `age` pushes ago, for an age below the capacity. -/
def get [Zero α] (h : History α) (age : Nat) : α :=
  h.values.getD ((h.head + age) % h.capacity) 0

@[simp] theorem capacity_zeros [Zero α] (n : Nat) : (zeros n : History α).capacity = n := by
  simp [zeros, capacity]

@[simp] theorem capacity_fill (h : History α) (v : α) : (h.fill v).capacity = h.capacity := by
  simp [fill, capacity]

@[simp] theorem capacity_push (h : History α) (v : α) : (h.push v).capacity = h.capacity := by
  unfold push
  split
  · rfl
  · simp [capacity]

end History

end SignalCalc
