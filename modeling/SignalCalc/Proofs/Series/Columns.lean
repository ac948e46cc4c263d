import SignalCalc.Proofs.Outcome
import SignalCalc.Series.Align
import SignalCalc.Series.Calculus
import SignalCalc.Series.Columns

/-!
# Series stored as two columns

A `Series` is a list of samples, so its columns cannot differ in length. `Columns` is how a program
stores a series that keeps the positions and the values apart. Nothing in the type makes the columns
equally long, each operation changes them one by one, and loops read and write them by index. An
index outside a column ends the operation with a fault.

Every operation on the columns of a series gives the columns of what the operation on the series
gives. For the calculus transforms this is `writeFrom_eq`, for the walk over two series
`Series.alignFrom_eq`.
-/

namespace SignalCalc

/-- A series as two columns, of any lengths. -/
@[ext] structure Columns (α : Type) where
  xs : List α
  ys : List α

/-- The columns of a series. -/
def Series.columns {α : Type} (s : Series α) : Columns α := ⟨s.xs, s.ys⟩

/-! ## Columns by index -/

section Access

/-- Why an operation on columns has no result. -/
inductive Fault (α : Type) [Zero α] [BEq α] where
  /-- An index outside a column. -/
  | outside
  /-- The operation has ended with an error of its own. -/
  | error (cause : Error α)

variable {α β σ : Type} [Zero α] [BEq α]

/-- An outcome, its error as a fault. -/
def Fault.lift : Except (Error α) β → Except (Fault α) β
  | .ok b => .ok b
  | .error e => .error (.error e)

@[simp] theorem Fault.lift_ok (b : β) : lift (.ok b : Except (Error α) β) = .ok b := rfl

@[simp] theorem Fault.lift_error (e : Error α) :
    lift (.error e : Except (Error α) β) = .error (.error e) :=
  rfl

/-- An error that a computation does not end with is not its fault either, whatever is made of the
result. -/
theorem Fault.lift_map_ne {γ : Type} {f : β → γ} {r : Except (Error α) β} {e : Error α}
    (h : r ≠ .error e) : lift (r.map f) ≠ .error (.error e) := by
  intro hr
  cases r with
  | ok b => cases hr
  | error e' =>
    cases hr
    exact h rfl

/-- The entry of a column at an index. -/
def readAt (column : List β) (i : Nat) : Except (Fault α) β :=
  match column[i]? with
  | some b => .ok b
  | none => .error .outside

/-- The column with another entry at an index. -/
def writeAt (column : List β) (i : Nat) (b : β) : Except (Fault α) (List β) :=
  if i < column.length then .ok (column.set i b) else .error .outside

/-- The entries of a column from an index on. -/
def sliceAt (column : List β) (start size : Nat) : Except (Fault α) (List β) :=
  if start + size ≤ column.length then .ok ((column.drop start).take size) else .error .outside

/-- Writes a count of entries from an index on. What is written comes from the index and from a
state that goes along. -/
def writeFrom (next : Nat → σ → Except (Fault α) (β × σ)) :
    Nat → Nat → σ → List β → Except (Fault α) (List β)
  | 0, _, _, column => .ok column
  | count + 1, i, state, column => do
    let (b, state) ← next i state
    writeFrom next count (i + 1) state (← writeAt column i b)

/-- The entries of a list, each that has a partner in another list replaced by what both give. -/
def updateBy {γ : Type} (f : β → γ → β) : List β → List γ → List β
  | b :: bs, c :: cs => f b c :: updateBy f bs cs
  | bs, _ => bs

/-- The entry at the length of a front part is the one behind it. -/
theorem writeAt_append (as : List β) (b c : β) (bs : List β) :
    writeAt (as ++ b :: bs) as.length c = (.ok (as ++ c :: bs) : Except (Fault α) (List β)) := by
  simp [writeAt]

/-- If there is something for every entry, then all entries are changed. -/
theorem updateBy_eq_zipWith {γ : Type} (f : β → γ → β) {bs : List β} {cs : List γ}
    (h : bs.length ≤ cs.length) : updateBy f bs cs = List.zipWith f bs cs := by
  induction bs generalizing cs with
  | nil => cases cs <;> rfl
  | cons b bs ih =>
    cases cs with
    | nil => cases h
    | cons c cs => rw [updateBy, ih (Nat.le_of_succ_le_succ h), List.zipWith_cons_cons]

/-- What is left of a list from an index on starts with the entry at the index. -/
theorem getElem?_of_drop {l : List β} {i : Nat} {b : β} {bs : List β} (h : l.drop i = b :: bs) :
    l[i]? = some b ∧ l.drop (i + 1) = bs := by
  constructor
  · rw [← List.head?_drop, h, List.head?_cons]
  · rw [← List.drop_drop, h, List.drop_one, List.tail_cons]

/-- A loop writes the values of a list if each round writes the value of one of its samples. The
values are given as a recursion over the samples that are left, from a state `t` of its own, and the
states of the loop and of the recursion are related at every index. -/
theorem writeFrom_eq {γ τ : Type} (next : Nat → σ → Except (Fault α) (β × σ)) (samples : List γ)
    (values : τ → List γ → List β) (Related : Nat → σ → τ → Prop) (hnil : ∀ t, values t [] = [])
    (hcons : ∀ i s t p rest, samples[i]? = some p → Related i s t →
      ∃ b s' t', next i s = .ok (b, s') ∧ values t (p :: rest) = b :: values t' rest ∧
        Related (i + 1) s' t')
    {i : Nat} {s : σ} {t : τ} (h : Related i s t) (written old : List β) (hi : written.length = i)
    (hold : old.length = (samples.drop i).length) :
    writeFrom next old.length i s (written ++ old) =
      .ok (written ++ values t (samples.drop i)) := by
  induction old generalizing i s t written with
  | nil =>
    rw [List.eq_nil_of_length_eq_zero hold.symm, hnil]
    rfl
  | cons b old ih =>
    obtain ⟨p, rest, hp⟩ : ∃ p rest, samples.drop i = p :: rest :=
      List.exists_cons_of_ne_nil fun h0 => by simp [h0] at hold
    obtain ⟨hget, hdrop⟩ := getElem?_of_drop hp
    obtain ⟨c, s', t', hn, hv, hr⟩ := hcons i s t p rest hget h
    have hlength : old.length = (samples.drop (i + 1)).length := by
      rw [hp] at hold
      rw [hdrop]
      exact Nat.succ.inj hold
    have hwritten : (written ++ [c]).length = i + 1 := by rw [List.length_append, hi]; rfl
    have hrest := ih hr (written ++ [c]) hwritten hlength
    rw [← List.append_cons, ← List.append_cons, hdrop] at hrest
    subst hi
    rw [List.length_cons, writeFrom, hn, ok_bind]
    dsimp only
    rw [writeAt_append, ok_bind, hp, hv, hrest]

end Access

namespace Columns

/-! ## Operations on the columns -/

section Plain

variable {α : Type}

def empty : Columns α := ⟨[], []⟩

def zeros [Zero α] (n : Nat) : Columns α := ⟨List.replicate n 0, List.replicate n 0⟩

/-- The given columns, which must be of one length. -/
def ofColumns [Zero α] [BEq α] (xs ys : List α) : Except (Error α) (Columns α) :=
  if xs.length ≠ ys.length then .error (.lengthMismatch xs.length ys.length) else .ok ⟨xs, ys⟩

/-- Columns of one length are accepted. -/
theorem ofColumns_eq [Zero α] [BEq α] {xs ys : List α}
    (h : xs.length = ys.length) : ofColumns xs ys = .ok ⟨xs, ys⟩ :=
  if_neg (not_not_intro h)

def tabulate (xs : List α) (f : α → α) : Columns α := ⟨xs, xs.map f⟩

def push (c : Columns α) (x y : α) : Columns α := ⟨c.xs ++ [x], c.ys ++ [y]⟩

/-- Replaces the position with an index, if there is one. -/
def setX (c : Columns α) (i : Nat) (x : α) : Columns α := ⟨c.xs.set i x, c.ys⟩

/-- Replaces the value with an index, if there is one. -/
def setY (c : Columns α) (i : Nat) (y : α) : Columns α := ⟨c.xs, c.ys.set i y⟩

def scaleX [Mul α] (c : Columns α) (factor : α) : Columns α := ⟨c.xs.map (· * factor), c.ys⟩

def reverse (c : Columns α) : Columns α := ⟨c.xs.reverse, c.ys.reverse⟩

def mapY (c : Columns α) (f : α → α) : Columns α := ⟨c.xs, c.ys.map f⟩

/-- Zeros at the positions. What depends on positions only is asked of this series. -/
def positions [Zero α] (c : Columns α) : Series α := .tabulate c.xs fun _ => 0

end Plain

section Indexed

variable {α : Type} [Zero α] [BEq α]

/-- Replaces the sample with an index, and says whether there was one. Only the positions are
asked. -/
def set (c : Columns α) (i : Nat) (x y : α) : Except (Fault α) (Bool × Columns α) :=
  if c.xs.length ≤ i then .ok (false, c)
  else do return (true, ⟨← writeAt c.xs i x, ← writeAt c.ys i y⟩)

/-- What the columns hold at an index. -/
def sampleAt (c : Columns α) (i : Nat) : Except (Fault α) (Sample α) := do
  return ⟨← readAt c.xs i, ← readAt c.ys i⟩

/-- A round of the loop that writes the derivative. -/
def slopeAt [Sub α] [Div α] (c : Columns α) (i : Nat) (_ : Unit) : Except (Fault α) (α × Unit) := do
  return (Series.slope (← c.sampleAt (i - 1)) (← c.sampleAt i), ())

/-- The derivative, written over a copy of the values. -/
def derivative [Sub α] [Div α] (c : Columns α) : Except (Fault α) (Columns α) :=
  if c.xs.length < 2 then .ok (c.mapY fun _ => 0)
  else do
    let ys ← writeAt c.ys 0 (Series.slope (← c.sampleAt 0) (← c.sampleAt 1))
    return ⟨c.xs, ← writeFrom c.slopeAt (c.xs.length - 1) 1 () ys⟩

/-- A round of the loop that writes the integral, with the area so far. -/
def areaAt [Add α] [Sub α] [Mul α] [OfScientific α] (c : Columns α) (i : Nat) (area : α) :
    Except (Fault α) (α × α) :=
  if 0 < i then do
    let area := area + Series.trapezoid (← c.sampleAt (i - 1)) (← c.sampleAt i)
    return (area, area)
  else .ok (area, area)

/-- The integral, written over a copy of the values. -/
def integral [Add α] [Sub α] [Mul α] [OfScientific α] (c : Columns α) :
    Except (Fault α) (Columns α) := do
  return ⟨c.xs, ← writeFrom c.areaAt c.ys.length 0 0 c.ys⟩

/-- A round of the loop that writes the root mean squares, with the sum of the squares so far. -/
def rmsAt [Add α] [Mul α] [Div α] [NatCast α] [Elementary α] (c : Columns α) (i : Nat) (sum : α) :
    Except (Fault α) (α × α) := do
  let y ← readAt c.ys i
  let sum := sum + y * y
  return (Elementary.sqrt (sum / ((i + 1 : Nat) : α)), sum)

/-- The running root mean squares, written over a copy of the values. -/
def rms [Add α] [Mul α] [Div α] [NatCast α] [Elementary α] (c : Columns α) :
    Except (Fault α) (Columns α) := do
  return ⟨c.xs, ← writeFrom c.rmsAt c.ys.length 0 0 c.ys⟩

end Indexed

section Aligned

variable {α : Type} [Zero α] [One α] [Sub α] [Mul α] [OfScientific α] [Max α] [LT α]
  [DecidableLT α] [LE α] [DecidableLE α] [BEq α] [Elementary α]

/-- The walk over two series from two indices on. What has been found is in `left` and `right`. -/
def alignFrom (c d : Columns α) (i j : Nat) (left right : Columns α) :
    Except (Fault α) (Columns α × Columns α) :=
  if h : i < c.xs.length ∧ j < d.xs.length then do
    let a ← readAt c.xs i
    let b ← readAt d.xs j
    if xMatches a b then
      alignFrom c d (i + 1) (j + 1) (left.push a (← readAt c.ys i))
        (right.push a (← readAt d.ys j))
    else if a < b then alignFrom c d (i + 1) j left right
    else alignFrom c d i (j + 1) left right
  else .ok (left, right)
termination_by (c.xs.length - i) + (d.xs.length - j)

/-- Two series at the positions that they have in common. -/
def align (c d : Columns α) : Except (Fault α) (Columns α × Columns α) :=
  alignFrom c d 0 0 empty empty

/-- The values of the first of two aligned series, each replaced by what both give. -/
def combine (c d : Columns α) (f : α → α → α) : Except (Fault α) (Columns α) := do
  let (left, right) ← c.align d
  return ⟨left.xs, updateBy f left.ys right.ys⟩

end Aligned

end Columns

namespace Series

/-! ## Replaced samples -/

section Replacement

variable {α : Type}

/-- Replacing a sample changes no other one, and nothing at all if there is no such sample. -/
structure ReplacesOne (s : Series α) (i : Nat) (p : Sample α) : Prop where
  outside : s.size ≤ i → s.set i p = (false, s)
  inside : i < s.size → (s.set i p).1 = true ∧ (s.set i p).2.size = s.size ∧
    ∀ j, (s.set i p).2.get? j = if j = i then some p else s.get? j

/-- A sample that is replaced is the only one that changes. -/
theorem replacesOne (s : Series α) (i : Nat) (p : Sample α) : s.ReplacesOne i p where
  outside h := by rw [set, decide_eq_false (Nat.not_lt.2 h), List.set_eq_of_length_le h]
  inside h := by
    refine ⟨decide_eq_true h, List.length_set, fun j => ?_⟩
    have hi : i < s.samples.length := h
    rw [set, get?, get?, List.getElem?_set]
    by_cases hj : i = j
    · rw [if_pos hj, if_pos hi, if_pos hj.symm]
    · rw [if_neg hj, if_neg (Ne.symm hj)]

end Replacement

/-! ## The columns of the results -/

section Plain

variable {α : Type} (s : Series α)

/-- The columns of a series are equally long, as both come from its samples. -/
theorem length_columns : s.columns.xs.length = s.columns.ys.length :=
  (length_xs s).trans (length_ys s).symm

/-- Both columns of zeros are zeros. -/
theorem columns_zeros [Zero α] (n : Nat) : (zeros n : Series α).columns = .zeros n := by
  simp [columns, Columns.zeros, zeros, xs, ys]

/-- The positions of a table are one column, and the values over them the other. -/
theorem columns_tabulate (xs : List α) (f : α → α) :
    (tabulate xs f).columns = .tabulate xs f := by
  simp [columns, Columns.tabulate]

/-- A new sample goes to the ends of both columns. -/
theorem columns_push (p : Sample α) : (s.push p).columns = s.columns.push p.x p.y := by
  simp [columns, Columns.push, push, xs, ys]

/-- A changed sample changes the entry of the column that it is changed in. -/
theorem map_modify {f : Sample α → Sample α} {g : Sample α → α} {a : α} (h : ∀ p, g (f p) = a)
    (samples : List (Sample α)) (i : Nat) :
    (samples.modify i f).map g = (samples.map g).set i a := by
  induction samples generalizing i with
  | nil => simp
  | cons p samples ih =>
    cases i with
    | zero => simp [h]
    | succ i => simp [ih]

/-- What does not depend on a change stays as it is. -/
theorem map_modify_of_eq {f : Sample α → Sample α} {g : Sample α → α} (h : ∀ p, g (f p) = g p)
    (samples : List (Sample α)) (i : Nat) : (samples.modify i f).map g = samples.map g := by
  induction samples generalizing i with
  | nil => simp
  | cons p samples ih =>
    cases i with
    | zero => simp [h]
    | succ i => simp [ih]

/-- A new position is written into the first column. -/
theorem columns_setX (i : Nat) (x : α) : (s.setX i x).columns = s.columns.setX i x :=
  Columns.ext (map_modify (fun _ => by rfl) s.samples i)
    (map_modify_of_eq (fun _ => by rfl) s.samples i)

/-- A new value is written into the second column. -/
theorem columns_setY (i : Nat) (y : α) : (s.setY i y).columns = s.columns.setY i y :=
  Columns.ext (map_modify_of_eq (fun _ => by rfl) s.samples i)
    (map_modify (fun _ => by rfl) s.samples i)

/-- Other values at the positions of a series. -/
theorem columns_zipWith {ys : List α} (h : ys.length = s.samples.length) :
    columns ⟨List.zipWith (fun p y => { p with y }) s.samples ys⟩ = ⟨s.xs, ys⟩ := by
  refine Columns.ext ?_ ?_
  · exact List.ext_getElem (by simp [columns, xs, h]) fun i h₁ h₂ => by simp [columns, xs]
  · exact List.ext_getElem (by simp [columns, Series.ys, h]) fun i h₁ h₂ => by
      simp [columns, Series.ys]

/-- A factor of the positions is one of the first column. -/
theorem columns_scaleX [Mul α] (factor : α) :
    (s.scaleX factor).columns = s.columns.scaleX factor := by
  simp [columns, Columns.scaleX]

/-- Both columns are turned around. -/
theorem columns_reverse : s.reverse.columns = s.columns.reverse := by
  simp [columns, Columns.reverse]

/-- A function of the values is one of the second column. -/
theorem columns_mapY (f : α → α) : (s.mapY f).columns = s.columns.mapY f := by
  simp [columns, Columns.mapY]

/-- A series from two columns has these columns, or the columns are refused. -/
theorem columns_ofColumns [Zero α] [BEq α] (xs ys : List α) :
    (ofColumns xs ys).map columns = Columns.ofColumns xs ys := by
  unfold ofColumns Columns.ofColumns
  by_cases h : xs.length = ys.length
  · obtain ⟨s, hs⟩ : ∃ s, ofColumns? xs ys = some s := ⟨_, if_pos h⟩
    obtain ⟨rfl, rfl⟩ := xs_of_ofColumns? hs
    rw [hs, if_neg (not_not_intro h)]
    rfl
  · rw [ofColumns?, if_neg h, if_pos h]
    rfl

end Plain

section Indexed

variable {α : Type} [Zero α] [BEq α] (s : Series α)

/-- A sample is replaced by an entry in each column, and at no index that is outside one of them. -/
theorem columns_set (i : Nat) (p : Sample α) :
    s.columns.set i p.x p.y = .ok ((s.set i p).1, (s.set i p).2.columns) := by
  have hx : s.columns.xs.length = s.size := length_xs s
  have hy : s.columns.ys.length = s.size := length_ys s
  rw [Columns.set]
  by_cases h : s.size ≤ i
  · rw [if_pos (by rwa [hx]), (s.replacesOne i p).outside h]
  · have hi : i < s.size := Nat.not_le.1 h
    rw [if_neg (by rwa [hx]), writeAt, if_pos (by rwa [hx]), writeAt, if_pos (by rwa [hy]), set,
      decide_eq_true hi]
    simp [columns, xs, ys, List.map_set]

variable {i : Nat} {p : Sample α}

/-- Where there is a sample, both columns have an entry. -/
theorem readAt_columns (h : s.samples[i]? = some p) :
    readAt s.columns.xs i = (.ok p.x : Except (Fault α) α) ∧
      readAt s.columns.ys i = (.ok p.y : Except (Fault α) α) := by
  simp [readAt, columns, xs, ys, h]

/-- Where there is a sample, it is read from both columns. -/
theorem sampleAt_columns (h : s.samples[i]? = some p) : s.columns.sampleAt i = .ok p := by
  obtain ⟨hx, hy⟩ := s.readAt_columns h
  rw [Columns.sampleAt, hx, ok_bind, hy]
  rfl

/-- The sample in front of what is left of a series is read at the index where that starts. -/
theorem readAt_of_drop {rest : List (Sample α)} (h : s.samples.drop i = p :: rest) :
    i < s.samples.length ∧ readAt s.columns.xs i = (.ok p.x : Except (Fault α) α) ∧
      readAt s.columns.ys i = (.ok p.y : Except (Fault α) α) ∧ s.samples.drop (i + 1) = rest := by
  obtain ⟨hget, hdrop⟩ := getElem?_of_drop h
  obtain ⟨hx, hy⟩ := s.readAt_columns hget
  exact ⟨(List.getElem?_eq_some_iff.1 hget).1, hx, hy, hdrop⟩

end Indexed

/-! ## Calculus -/

section Positions

variable {α : Type}

/-- Slopes stand at the positions of the samples. -/
theorem xs_slopesAfter [Sub α] [Div α] (previous : Sample α) (samples : List (Sample α)) :
    (slopesAfter previous samples).map (·.x) = samples.map (·.x) := by
  induction samples generalizing previous with
  | nil => rfl
  | cons p rest ih => rw [slopesAfter, List.map_cons, List.map_cons, ih]

/-- Areas stand at the positions of the samples. -/
theorem xs_areasAfter [Add α] [Sub α] [Mul α] [OfScientific α] (previous : Sample α) (area : α)
    (samples : List (Sample α)) :
    (areasAfter previous area samples).map (·.x) = samples.map (·.x) := by
  induction samples generalizing previous area with
  | nil => rfl
  | cons p rest ih => rw [areasAfter, List.map_cons, List.map_cons, ih]

/-- Running means stand at the positions of the samples. -/
theorem xs_rmsAfter [Add α] [Mul α] [Div α] [NatCast α] [Elementary α] (count : Nat) (sum : α)
    (samples : List (Sample α)) :
    (rmsAfter count sum samples).map (·.x) = samples.map (·.x) := by
  induction samples generalizing count sum with
  | nil => rfl
  | cons p rest ih => rw [rmsAfter, List.map_cons, List.map_cons, ih]

variable [Zero α] (s : Series α)

@[simp] theorem xs_derivative [Sub α] [Div α] : s.derivative.xs = s.xs := by
  rw [derivative]
  split
  · next first second rest hs =>
    rw [xs, List.map_cons, xs_slopesAfter, xs, hs]
    rfl
  · simp [xs, Function.comp_def]

@[simp] theorem xs_integral [Add α] [Sub α] [Mul α] [OfScientific α] :
    s.integral.xs = s.xs := by
  rw [integral]
  split
  · next first rest hs =>
    rw [xs, List.map_cons, xs_areasAfter, xs, hs]
    rfl
  · next hs => rw [xs, xs, hs]; rfl

@[simp] theorem xs_rms [Add α] [Mul α] [Div α] [NatCast α] [Elementary α] : s.rms.xs = s.xs :=
  xs_rmsAfter 0 0 s.samples

end Positions

section Calculus

variable {α : Type} [Zero α] [BEq α] (s : Series α)

/-- A loop over a copy of the values leaves the positions as they are. -/
theorem columns_of_values {t : Series α} (hx : t.xs = s.xs) {column : Except (Fault α) (List α)}
    (hy : column = .ok t.ys) :
    (do return ⟨s.columns.xs, ← column⟩ : Except (Fault α) (Columns α)) = .ok t.columns := by
  rw [hy, ok_bind]
  exact congrArg _ (Columns.ext hx.symm rfl)

/-- The loop of the derivative behind the first sample. The recursion carries the sample before. -/
theorem writeFrom_slopeAt [Sub α] [Div α] {first : Sample α} {rest : List (Sample α)}
    (hs : s.samples = first :: rest) (y : α) :
    writeFrom s.columns.slopeAt rest.length 1 () (y :: rest.map (·.y)) =
      .ok (y :: (slopesAfter first rest).map (·.y)) := by
  have hloop := writeFrom_eq s.columns.slopeAt (s := ()) s.samples
    (fun p rest => (slopesAfter p rest).map (·.y))
    (fun i _ p => 0 < i ∧ s.samples[i - 1]? = some p) (fun _ => rfl)
    (by
      rintro i ⟨⟩ p q rest hq ⟨hi, hp⟩
      refine ⟨slope p q, (), q, ?_, rfl, Nat.succ_pos i, hq⟩
      rw [Columns.slopeAt, s.sampleAt_columns hp, s.sampleAt_columns hq]
      rfl)
    ⟨Nat.one_pos, by rw [hs]; rfl⟩ [y] (rest.map (·.y)) rfl (by simp [hs])
  rwa [List.length_map, hs] at hloop

/-- The loops of the derivative give its columns, and meet no index outside one. -/
theorem columns_derivative [Sub α] [Div α] :
    s.columns.derivative = .ok s.derivative.columns := by
  have hx : s.columns.xs.length = s.samples.length := length_xs s
  rw [Columns.derivative, hx]
  match hs : s.samples with
  | [] | [_] =>
    rw [if_pos (by simp), derivative, hs]
    exact congrArg _ (by simp [columns, Columns.mapY, xs, ys, hs])
  | first :: second :: rest =>
    have hfirst : s.columns.sampleAt 0 = .ok first := s.sampleAt_columns (by rw [hs]; rfl)
    have hsecond : s.columns.sampleAt 1 = .ok second := s.sampleAt_columns (by rw [hs]; rfl)
    have hwrite : writeAt s.columns.ys 0 (slope first second) =
        (.ok (slope first second :: (second :: rest).map (·.y)) : Except (Fault α) (List α)) := by
      rw [columns, ys, hs]
      exact writeAt_append [] first.y (slope first second) _
    rw [if_neg (by simp), hfirst, ok_bind, hsecond, ok_bind, hwrite, ok_bind]
    refine s.columns_of_values s.xs_derivative ?_
    rw [derivative, hs]
    exact s.writeFrom_slopeAt hs _

/-- The loop of the integral behind the first sample. The recursion carries the sample before. -/
theorem writeFrom_areaAt [Add α] [Sub α] [Mul α] [OfScientific α] {first : Sample α}
    {rest : List (Sample α)} (hs : s.samples = first :: rest) (y area : α) :
    writeFrom s.columns.areaAt rest.length 1 area (y :: rest.map (·.y)) =
      .ok (y :: (areasAfter first area rest).map (·.y)) := by
  have hloop := writeFrom_eq s.columns.areaAt (t := (first, area)) s.samples
    (fun (t : Sample α × α) rest => (areasAfter t.1 t.2 rest).map (·.y))
    (fun i area t => 0 < i ∧ s.samples[i - 1]? = some t.1 ∧ t.2 = area) (fun _ => rfl)
    (by
      rintro i _ ⟨p, area⟩ q rest hq ⟨hi, hp, rfl⟩
      refine ⟨_, _, (q, area + trapezoid p q), ?_, rfl, Nat.succ_pos i, hq, rfl⟩
      rw [Columns.areaAt, if_pos hi, s.sampleAt_columns hp, s.sampleAt_columns hq]
      rfl)
    ⟨Nat.one_pos, by rw [hs]; rfl, rfl⟩ [y] (rest.map (·.y)) rfl (by simp [hs])
  rwa [List.length_map, hs] at hloop

/-- The first round of the loop writes the zero that the recursion starts with. -/
theorem columns_integral [Add α] [Sub α] [Mul α] [OfScientific α] :
    s.columns.integral = .ok s.integral.columns := by
  refine s.columns_of_values s.xs_integral ?_
  cases hs : s.samples with
  | nil =>
    rw [columns, ys, hs, integral, hs]
    rfl
  | cons first rest =>
    have hwrite : writeAt s.columns.ys 0 0 =
        (.ok (0 :: rest.map (·.y)) : Except (Fault α) (List α)) := by
      rw [columns, ys, hs]
      exact writeAt_append [] first.y 0 _
    have hlength : s.columns.ys.length = rest.length + 1 := by simp [columns, ys, hs]
    rw [hlength, writeFrom, Columns.areaAt, if_neg (Nat.lt_irrefl 0), ok_bind]
    dsimp only
    rw [hwrite, ok_bind, s.writeFrom_areaAt hs, integral, hs]
    rfl

/-- The state of the recursion is that of the loop, with the count of samples before. -/
theorem columns_rms [Add α] [Mul α] [Div α] [NatCast α] [Elementary α] :
    s.columns.rms = .ok s.rms.columns := by
  refine s.columns_of_values s.xs_rms ?_
  refine writeFrom_eq s.columns.rmsAt s.samples
    (fun (t : Nat × α) rest => (rmsAfter t.1 t.2 rest).map (·.y))
    (fun i sum t => t = (i, sum)) (fun _ => rfl) ?_ rfl [] s.ys rfl (by simp [ys])
  rintro i sum _ p rest hp rfl
  refine ⟨_, _, (i + 1, sum + p.y * p.y), ?_, rfl, rfl⟩
  rw [Columns.rmsAt, (s.readAt_columns hp).2]
  rfl

end Calculus

/-! ## Alignment -/

section Aligned

variable {α : Type} [Zero α] [One α] [Sub α] [Mul α] [OfScientific α] [Max α] [LT α]
  [DecidableLT α] [LE α] [DecidableLE α] [BEq α] [Elementary α]

/-- What the walk has found so far stands before what is left to find. -/
theorem alignFrom_eq (s t l r : Series α) {i j : Nat} {as bs : List (Sample α)}
    (ha : s.samples.drop i = as) (hb : t.samples.drop j = bs) :
    Columns.alignFrom s.columns t.columns i j l.columns r.columns =
      .ok (columns ⟨l.samples ++ (commonSamples as bs).map (·.1)⟩,
        columns ⟨r.samples ++ (commonSamples as bs).map fun (a, b) => ⟨a.x, b.y⟩⟩) := by
  have hs : s.columns.xs.length = s.samples.length := length_xs s
  have ht : t.columns.xs.length = t.samples.length := length_xs t
  induction as, bs using commonSamples.induct generalizing i j l r with
  | case1 a as b bs hm ih =>
    obtain ⟨hi, hxa, hya, hra⟩ := s.readAt_of_drop ha
    obtain ⟨hj, hxb, hyb, hrb⟩ := t.readAt_of_drop hb
    have hrest := ih (l.push a) (r.push ⟨a.x, b.y⟩) hra hrb
    rw [columns_push, columns_push] at hrest
    rw [Columns.alignFrom, dif_pos (by omega), hxa, ok_bind, hxb, ok_bind, if_pos hm, hya, ok_bind,
      hyb, ok_bind, hrest, commonSamples, if_pos hm]
    simp [push]
  | case2 a as b bs hm hlt ih =>
    obtain ⟨hi, hxa, -, hra⟩ := s.readAt_of_drop ha
    obtain ⟨hj, hxb, -, -⟩ := t.readAt_of_drop hb
    rw [Columns.alignFrom, dif_pos (by omega), hxa, ok_bind, hxb, ok_bind, if_neg hm, if_pos hlt,
      ih l r hra hb, commonSamples, if_neg hm, if_pos hlt]
  | case3 a as b bs hm hlt ih =>
    obtain ⟨hi, hxa, -, -⟩ := s.readAt_of_drop ha
    obtain ⟨hj, hxb, -, hrb⟩ := t.readAt_of_drop hb
    rw [Columns.alignFrom, dif_pos (by omega), hxa, ok_bind, hxb, ok_bind, if_neg hm, if_neg hlt,
      ih l r ha hrb, commonSamples, if_neg hm, if_neg hlt]
  | case4 as bs hnil =>
    -- One of the two walks has come to the end of its columns.
    have hend : ¬(i < s.columns.xs.length ∧ j < t.columns.xs.length) := by
      rintro ⟨hi, hj⟩
      rw [hs] at hi
      rw [ht] at hj
      exact hnil _ _ _ _ (ha.symm.trans (List.drop_eq_getElem_cons hi))
        (hb.symm.trans (List.drop_eq_getElem_cons hj))
    rw [Columns.alignFrom, dif_neg hend, commonSamples]
    · simp
    · exact hnil

/-- The walk over the columns of two series gives the columns of both aligned series. -/
theorem columns_align (s t : Series α) :
    s.columns.align t.columns = .ok ((s.align t).1.columns, (s.align t).2.columns) :=
  alignFrom_eq s t empty empty rfl rfl

/-- Two series are combined on their columns: the walk aligns them, and a loop changes the
values. -/
theorem columns_combine (s t : Series α) (f : α → α → α) :
    s.columns.combine t.columns f = .ok (s.combine t f).columns := by
  rw [Columns.combine, columns_align, ok_bind]
  have hys : (s.align t).1.columns.ys.length ≤ (s.align t).2.columns.ys.length := by
    simp [columns, align, size]
  dsimp only
  rw [pure_eq_ok, updateBy_eq_zipWith f hys]
  refine congrArg _ (Columns.ext ?_ (ys_combine s t f).symm)
  simp [columns, align, combine, xs, Function.comp_def]

end Aligned

/-! ## Positions -/

section Positions

variable {α : Type} {s t : Series α}

/-- The number of samples is that of the positions. -/
theorem size_congr (h : s.xs = t.xs) : s.size = t.size := by
  rw [← length_xs, h, length_xs]

/-- The series of the positions has the positions. -/
theorem xs_positions [Zero α] (s : Series α) : s.columns.positions.xs = s.xs :=
  xs_tabulate _ _

variable [Sub α] [Div α] [NatCast α]

/-- The spacing is read from the first and the last position. -/
theorem spacing?_eq (s : Series α) :
    s.spacing? = if h : 1 < s.xs.length then
      some ((s.xs[s.xs.length - 1] - s.xs[0]) / ((s.xs.length - 1 : Nat) : α)) else none := by
  rcases s with ⟨_ | ⟨first, _ | ⟨second, rest⟩⟩⟩
  · rfl
  · rfl
  · simp [spacing?, xs, size, List.getLast_eq_getElem, ← List.getElem_map Sample.x,
      -List.getElem_map]

/-- The spacing of a series depends on its positions only. -/
theorem spacing?_congr (h : s.xs = t.xs) : s.spacing? = t.spacing? := by
  rw [spacing?_eq, spacing?_eq]
  simp only [h]

end Positions

end Series

end SignalCalc
