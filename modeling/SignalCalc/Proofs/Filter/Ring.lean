import SignalCalc.Proofs.Filter.Recurrence

/-!
# The rings of a filter

A ring is pushed to and filled in any order. What it has to give is told by the list of these
changes alone: the values that have been pushed since it was last filled, the newest first, and
behind them the value that it was filled with (`Change.recent`, `Change.filled`). Every change keeps
a ring in step with its list, whatever its capacity is and however often the newest value has gone
round (`History.shows_changed`).

The index of a value is a remainder by the capacity, which must not be zero. `History.get?` and
`History.push?` check the age, the divisor and the index, and `DigitalFilter.after?` is a run of a
filter with these checks. The two rings have one place for each coefficient that asks for a value,
so no check fails.

Main statement: `rings_hold_recent_values`.
-/

namespace SignalCalc

/-! ## Changes -/

/-- What is done to a history. -/
inductive Change (α : Type) where
  | push (v : α)
  | fill (v : α)

namespace Change

variable {α : Type}

/-- The values pushed since the last filling, the newest first. The changes are listed with the last
one first. -/
def recent : List (Change α) → List α
  | push v :: before => v :: recent before
  | fill _ :: _ => []
  | [] => []

/-- The value of the last filling, zero if there was none. The changes are listed with the last one
first. -/
def filled [Zero α] : List (Change α) → α
  | push _ :: before => filled before
  | fill v :: _ => v
  | [] => 0

end Change

namespace History

section Changed

variable {α : Type}

/-- The history after a change. -/
def change (h : History α) : Change α → History α
  | .push v => h.push v
  | .fill v => h.fill v

/-- The history after a list of changes. -/
def changed (h : History α) (changes : List (Change α)) : History α := changes.foldl change h

/-- Changes are made one after the other. -/
theorem changed_append (h : History α) (changes : List (Change α)) (c : Change α) :
    h.changed (changes ++ [c]) = (h.changed changes).change c := by
  rw [changed, List.foldl_append]
  rfl

@[simp] theorem capacity_change (h : History α) (c : Change α) :
    (h.change c).capacity = h.capacity := by
  cases c with
  | push v => exact h.capacity_push v
  | fill v => exact h.capacity_fill v

@[simp] theorem capacity_changed (h : History α) (changes : List (Change α)) :
    (h.changed changes).capacity = h.capacity := by
  induction changes using List.reverseRecOn with
  | nil => rfl
  | append_singleton changes c ih => rw [changed_append, capacity_change, ih]

variable [Zero α]

/-- A new history shows what the list of its changes tells. -/
theorem shows_changed (capacity : Nat) (changes : List (Change α)) :
    ((zeros capacity).changed changes).Shows fun age =>
      (Change.recent changes.reverse).getD age (Change.filled changes.reverse) := by
  induction changes using List.reverseRecOn with
  | nil => exact shows_zeros capacity
  | append_singleton changes c ih =>
    rw [changed_append, List.reverse_append, List.reverse_singleton, List.singleton_append]
    cases c with
    | push v =>
      have hpushed : (pushed v fun age =>
          (Change.recent changes.reverse).getD age (Change.filled changes.reverse)) = fun age =>
            (Change.recent (.push v :: changes.reverse)).getD age
              (Change.filled (.push v :: changes.reverse)) := by
        funext age
        cases age <;> rfl
      exact hpushed ▸ ih.push v
    | fill v => exact shows_fill _ v

end Changed

/-! ## Access with checks -/

section Checked

variable {α : Type}

/-- The remainder of a division, none of a division by zero. -/
def remainder? (n divisor : Nat) : Option Nat :=
  if divisor = 0 then none else some (n % divisor)

/-- The value pushed `age` pushes ago, none for an age that is not below the capacity. -/
def get? (h : History α) (age : Nat) : Option α := do
  guard (age < h.capacity)
  let i ← remainder? (h.head + age) h.capacity
  h.values[i]?

/-- A new value in the place of the oldest one, none if there is no such place. A history without
capacity stays as it is. -/
def push? (h : History α) (v : α) : Option (History α) :=
  if h.capacity = 0 then some h
  else do
    let head ← remainder? (h.head + h.capacity - 1) h.capacity
    guard (head < h.values.size)
    return ⟨h.values.setIfInBounds head v, head⟩

/-- A push is never outside the ring. -/
theorem push?_eq (h : History α) (v : α) : h.push? v = some (h.push v) := by
  by_cases hc : h.capacity = 0
  · rw [push?, push, if_pos hc, if_pos hc]
  · have hlt : (h.head + h.capacity - 1) % h.capacity < h.values.size :=
      Nat.mod_lt _ (Nat.pos_of_ne_zero hc)
    rw [push?, push, if_neg hc, if_neg hc, remainder?, if_neg hc, Option.bind_eq_bind,
      Option.bind_some, guard, if_pos hlt]
    rfl

/-- Reading succeeds for the ages below the capacity and for no others. -/
theorem get?_eq [Zero α] (h : History α) (age : Nat) :
    h.get? age = if age < h.capacity then some (h.get age) else none := by
  by_cases hlt : age < h.capacity
  · have hc : h.capacity ≠ 0 := Nat.ne_of_gt (Nat.zero_lt_of_lt hlt)
    have hi : (h.head + age) % h.capacity < h.values.size :=
      Nat.mod_lt _ (Nat.pos_of_ne_zero hc)
    rw [get?, if_pos hlt, guard, if_pos hlt]
    simp [remainder?, hc, get, Array.getD_eq_getD_getElem?, hi]
  · rw [get?, if_neg hlt, guard, if_neg hlt]
    rfl

end Checked

end History

/-! ## Runs with checks -/

/-- A loop in which no round fails. -/
theorem mapM_eq_some {β γ : Type} {g : β → Option γ} {f : β → γ} {bs : List β}
    (h : ∀ b ∈ bs, g b = some (f b)) : bs.mapM g = some (bs.map f) := by
  induction bs with
  | nil => rfl
  | cons b bs ih =>
    rw [List.mapM_cons, h b List.mem_cons_self, ih fun c hc => h c (List.mem_cons_of_mem b hc)]
    rfl

namespace DigitalFilter

variable {α : Type} [Zero α] [Neg α] [Add α] [Sub α] [Mul α] [Div α] [BEq α]

/-- The filter after one more sample, none if a ring is asked for an age that it has no place for.
The coefficients are numbered from the leading ones on, and the feedback starts at number one. -/
def applyChecked? (f : DigitalFilter α) (u : α) : Option (DigitalFilter α) := do
  let inputs ← f.inputs.push? u
  let forward ← f.b.zipIdx.mapM fun (c, k) => (c * ·) <$> inputs.get? k
  let feedback ← (f.a.zipIdx.drop 1).mapM fun (c, k) => (c * ·) <$> f.outputs.get? (k - 1)
  let y := total forward - total feedback
  let outputs ← f.outputs.push? y
  return { f with inputs, outputs, output := y, state := .running }

/-- The filter after a call. Settling reads nothing from the rings. -/
def call? (f : DigitalFilter α) : Call α → Option (DigitalFilter α)
  | .settle v => some (f.settle v)
  | .apply u => f.applyChecked? u

/-- The filter after a list of calls. -/
def after? (f : DigitalFilter α) (calls : List (Call α)) : Option (DigitalFilter α) :=
  calls.foldlM call? f

omit [Neg α] [Add α] [Sub α] [Div α] [BEq α] in
/-- A ring with a place for every coefficient is asked for values that it has. -/
theorem mapM_get? {cs : List α} {h : History α} (hc : cs.length ≤ h.capacity) :
    (cs.zipIdx.mapM fun (c, k) => (c * ·) <$> h.get? k) =
      some (cs.zipIdx.map fun (c, k) => c * h.get k) := by
  refine mapM_eq_some ?_
  rintro ⟨c, k⟩ hk
  have hl : k < cs.length := (List.getElem?_eq_some_iff.1 (List.mem_zipIdx_iff_getElem?.1 hk)).1
  show (c * ·) <$> h.get? k = some (c * h.get k)
  rw [h.get?_eq, if_pos (by omega)]
  rfl

omit [Div α] [BEq α] in
/-- No check fails if the rings have places for the coefficients. -/
theorem applyChecked?_eq {f : DigitalFilter α} (hi : f.b.length ≤ f.inputs.capacity)
    (ho : f.a.length - 1 ≤ f.outputs.capacity) (u : α) :
    f.applyChecked? u = some (f.apply u) := by
  have hi' : f.b.length ≤ (f.inputs.push u).capacity := by simpa using hi
  have hforward := mapM_get? hi'
  have hfeedback : (f.a.zipIdx.drop 1).mapM (fun (c, k) => (c * ·) <$> f.outputs.get? (k - 1)) =
      some ((f.a.drop 1).zipIdx.map fun (c, k) => c * f.outputs.get k) := by
    rw [← mapM_get? (by rwa [List.length_drop])]
    cases f.a with
    | nil => rfl
    | cons a₀ as =>
      rw [List.zipIdx_cons, List.drop_one, List.tail_cons, List.drop_one, List.tail_cons,
        List.zipIdx_succ, List.mapM_map]
      rfl
  rw [applyChecked?, f.inputs.push?_eq]
  simp only [Option.bind_eq_bind, Option.bind_some, hforward, hfeedback, History.push?_eq]
  rfl

/-- A run of a filter passes all checks: its rings have the places that the lists of coefficients
ask for, and they keep them. -/
theorem after?_eq [One α] [NatCast α] [LE α] [DecidableLE α] [Elementary α] {b a : List α}
    {f : DigitalFilter α} (h : ofCoefficients b a = .ok f) (calls : List (Call α)) :
    f.after? calls = some (f.after calls) := by
  induction calls using List.reverseRecOn with
  | nil => rfl
  | append_singleton calls c ih =>
    have ht := Run.tracks_through (Run.tracks_start h) calls
    rw [after?] at ih
    rw [after?, List.foldlM_append, ih, after_append, ← Run.filter_through]
    generalize Run.through f calls = r at ht
    cases c with
    | settle v => rfl
    | apply u =>
      have hi : r.filter.b.length ≤ r.filter.inputs.capacity := by
        rw [ht.b_eq]
        exact Nat.le_of_eq ht.capacity_inputs.symm
      have ho : r.filter.a.length - 1 ≤ r.filter.outputs.capacity := by
        rw [ht.a_eq]
        exact Nat.le_of_eq ht.capacity_outputs.symm
      show List.foldlM call? r.filter [.apply u] = _
      rw [List.foldlM_cons, call?, applyChecked?_eq hi ho]
      rfl

/-- **Rings hold the values that were pushed last.** A new history of any capacity is pushed to and
filled in any order. Its newest index stays below the capacity. It gives for every age below the
capacity the value that was pushed so many pushes ago, if there have been enough since it was last
filled, and the value that it was filled with, if not; with checks it gives the same, and nothing
for any other age. The rings of a filter are asked for such ages only, whatever coefficients it is
made of and however it is called: a run in which ages, divisors and indices are checked ends as the
run without checks. -/
theorem rings_hold_recent_values [One α] [NatCast α] [LE α] [DecidableLE α] [Elementary α] :
    (∀ (capacity : Nat) (changes : List (Change α)),
      let ring := (History.zeros capacity).changed changes
      let recent := Change.recent changes.reverse
      ring.capacity = capacity ∧ (ring.head < capacity ∨ capacity = 0 ∧ ring.head = 0) ∧
        (∀ age < capacity, ring.get age = recent.getD age (Change.filled changes.reverse)) ∧
        ∀ age, ring.get? age = if age < capacity then some (ring.get age) else none) ∧
    ∀ (b a : List α) (f : DigitalFilter α) (calls : List (Call α)),
      ofCoefficients b a = .ok f →
      (f.after calls).inputs.capacity = b.length ∧
        (f.after calls).outputs.capacity = a.length - 1 ∧
        f.after? calls = some (f.after calls) := by
  refine ⟨fun capacity changes => ?_, fun b a f calls h => ?_⟩
  · intro ring recent
    have hc : ring.capacity = capacity := by
      rw [History.capacity_changed, History.capacity_zeros]
    have hs := History.shows_changed capacity changes
    have hhead : ring.head = 0 ∨ ring.head < capacity := hc ▸ hs.head_lt
    exact ⟨hc, by omega, fun age hage => hs.get_eq age (hc.symm ▸ hage), hc ▸ ring.get?_eq⟩
  · have ht := Run.tracks_through (Run.tracks_start h) calls
    obtain ⟨a₀, feedback, -, rfl, -, -, rfl⟩ := ofCoefficients_eq_ok_iff.1 h
    rw [← Run.filter_through]
    refine ⟨ht.capacity_inputs.trans (List.length_map _), ?_, ?_⟩
    · rw [ht.capacity_outputs, List.length_map]
    · rw [Run.filter_through, after?_eq h]

/-- A ring of two is filled between pushes, and a filter with one coefficient for outputs is settled
between samples. -/
theorem rings_hold_recent_values_filled :
    let changes : List (Change Float) := [.push 1, .push 2, .push 3, .fill 7, .push 4]
    let ring := (History.zeros 2).changed changes
    let calls : List (Call Float) := [.apply 3, .settle 4, .apply 1]
    0 < 2 ∧ 1 < 2 ∧ ring.head = 1 ∧ ring.get 0 = 4 ∧ ring.get 1 = 7 ∧ ring.get? 2 = none ∧
      ∃ f : DigitalFilter Float, ofCoefficients [2, 1] [2, -1] = .ok f ∧
        (f.after calls).outputs.capacity = 1 ∧ f.after? calls = some (f.after calls) := by
  intro changes ring calls
  obtain ⟨hring, hfilter⟩ := rings_hold_recent_values (α := Float)
  obtain ⟨-, -, hget, hchecked⟩ := hring 2 changes
  obtain ⟨f, h⟩ : ∃ f : DigitalFilter Float, ofCoefficients [2, 1] [2, -1] = .ok f := ⟨_, rfl⟩
  obtain ⟨-, houtputs, hrun⟩ := hfilter _ _ f calls h
  exact ⟨Nat.two_pos, Nat.one_lt_two, by decide, hget 0 Nat.two_pos, hget 1 Nat.one_lt_two,
    hchecked 2, f, h, houtputs, hrun⟩

end DigitalFilter

end SignalCalc
