import SignalCalc.Elementary

/-!
# Sampled series

A `Series` is a list of samples, each an `x` (time or frequency) with its `y`. Two columns of
unequal length are therefore no series: `Series.ofColumns?` is the only way in for separate columns,
and it refuses them.

Main definitions: the constructors, the columns `Series.xs` and `Series.ys`, the maps `Series.mapY`
and `Series.scaleX`, and the statistics of the columns.
-/

namespace SignalCalc

/-- A value measured at a position. -/
@[ext] structure Sample (α : Type) where
  x : α
  y : α

/-- A list of samples, in the order in which they were taken. -/
@[ext] structure Series (α : Type) where
  samples : List (Sample α)

namespace Series

section Columns

variable {α β : Type}

/-- The series without samples. -/
def empty : Series α := ⟨[]⟩

instance : Inhabited (Series α) := ⟨empty⟩

/-- The positions. -/
def xs (s : Series α) : List α := s.samples.map (·.x)

/-- The values. -/
def ys (s : Series α) : List α := s.samples.map (·.y)

def size (s : Series α) : Nat := s.samples.length

def isEmpty (s : Series α) : Bool := s.samples.isEmpty

/-- The series with the given columns, none if one is longer than the other. -/
def ofColumns? (xs ys : List α) : Option (Series α) :=
  if xs.length = ys.length then some ⟨List.zipWith Sample.mk xs ys⟩ else none

/-- The series of a function at given positions. -/
def tabulate (xs : List α) (f : α → α) : Series α := ⟨xs.map fun x => ⟨x, f x⟩⟩

/-- A series of zeros. -/
def zeros [Zero α] (n : Nat) : Series α := ⟨List.replicate n ⟨0, 0⟩⟩

/-- The series with one more sample at its end. -/
def push (s : Series α) (p : Sample α) : Series α := ⟨s.samples ++ [p]⟩

/-- The sample with an index. -/
def get? (s : Series α) (i : Nat) : Option (Sample α) := s.samples[i]?

/-- Replaces the sample with an index, and says whether there was one. -/
def set (s : Series α) (i : Nat) (p : Sample α) : Bool × Series α :=
  (decide (i < s.size), ⟨s.samples.set i p⟩)

/-- Replaces the position of the sample with an index, if there is one. -/
def setX (s : Series α) (i : Nat) (x : α) : Series α :=
  ⟨s.samples.modify i fun p => { p with x }⟩

/-- Replaces the value of the sample with an index, if there is one. -/
def setY (s : Series α) (i : Nat) (y : α) : Series α :=
  ⟨s.samples.modify i fun p => { p with y }⟩

/-- The samples in the opposite order. -/
def reverse (s : Series α) : Series α := ⟨s.samples.reverse⟩

/-- Every value replaced by its image. -/
def mapY (s : Series α) (f : α → α) : Series α := ⟨s.samples.map fun p => { p with y := f p.y }⟩

/-- Every position multiplied by a factor, as for a change of unit. -/
def scaleX [Mul α] (s : Series α) (factor : α) : Series α :=
  ⟨s.samples.map fun p => { p with x := p.x * factor }⟩

/-! ## The columns of the results -/

@[simp] theorem length_xs (s : Series α) : s.xs.length = s.size := by simp [xs, size]

@[simp] theorem length_ys (s : Series α) : s.ys.length = s.size := by simp [ys, size]

/-- A series from two columns has these columns. -/
theorem xs_of_ofColumns? {xs ys : List α} {s : Series α} (h : ofColumns? xs ys = some s) :
    s.xs = xs ∧ s.ys = ys := by
  unfold ofColumns? at h
  split at h
  · next hlen =>
    cases h
    constructor
    · simp only [Series.xs, List.map_zipWith]
      exact List.ext_getElem (by simp [hlen]) (by simp)
    · simp only [Series.ys, List.map_zipWith]
      exact List.ext_getElem (by simp [hlen]) (by simp)
  · cases h

@[simp] theorem xs_tabulate (xs : List α) (f : α → α) : (tabulate xs f).xs = xs := by
  simp [tabulate, Series.xs, Function.comp_def]

@[simp] theorem ys_tabulate (xs : List α) (f : α → α) : (tabulate xs f).ys = xs.map f := by
  simp [tabulate, Series.ys, Function.comp_def]

@[simp] theorem xs_mapY (s : Series α) (f : α → α) : (s.mapY f).xs = s.xs := by
  simp [mapY, xs, Function.comp_def]

@[simp] theorem ys_mapY (s : Series α) (f : α → α) : (s.mapY f).ys = s.ys.map f := by
  simp [mapY, ys, Function.comp_def]

@[simp] theorem xs_scaleX [Mul α] (s : Series α) (factor : α) :
    (s.scaleX factor).xs = s.xs.map (· * factor) := by
  simp [scaleX, xs, Function.comp_def]

@[simp] theorem ys_scaleX [Mul α] (s : Series α) (factor : α) : (s.scaleX factor).ys = s.ys := by
  simp [scaleX, ys, Function.comp_def]

@[simp] theorem xs_reverse (s : Series α) : s.reverse.xs = s.xs.reverse := by simp [reverse, xs]

@[simp] theorem ys_reverse (s : Series α) : s.reverse.ys = s.ys.reverse := by simp [reverse, ys]

end Columns

/-! ## Statistics -/

section Statistics

variable {α : Type}

/-- The lesser of two numbers, the other one if one of them is undefined. -/
def lesser [LT α] [DecidableLT α] [BEq α] (a b : α) : α :=
  if b < a then b else if a == a then a else b

/-- The greater of two numbers, the other one if one of them is undefined. -/
def greater [LT α] [DecidableLT α] [BEq α] (a b : α) : α :=
  if a < b then b else if a == a then a else b

/-- The entries of a list combined from left to right. -/
def reduce? (f : α → α → α) : List α → Option α
  | [] => none
  | a :: as => some (as.foldl f a)

def minX? [LT α] [DecidableLT α] [BEq α] (s : Series α) : Option α := reduce? lesser s.xs

def maxX? [LT α] [DecidableLT α] [BEq α] (s : Series α) : Option α := reduce? greater s.xs

def minY? [LT α] [DecidableLT α] [BEq α] (s : Series α) : Option α := reduce? lesser s.ys

def maxY? [LT α] [DecidableLT α] [BEq α] (s : Series α) : Option α := reduce? greater s.ys

/-- The mean of the values, none for the empty series. -/
def meanY? [Zero α] [Neg α] [Add α] [Div α] [NatCast α] (s : Series α) : Option α :=
  if s.isEmpty then none else some (total s.ys / (s.size : α))

/-- The average distance from one position to the next, none below two samples. -/
def spacing? [Sub α] [Div α] [NatCast α] (s : Series α) : Option α :=
  match s.samples with
  | first :: second :: rest =>
    let last := (second :: rest).getLast (List.cons_ne_nil _ _)
    some ((last.x - first.x) / ((s.size - 1 : Nat) : α))
  | _ => none

end Statistics

end Series

end SignalCalc
