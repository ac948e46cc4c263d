import SignalCalc.Elementary

/-!
# Linear equations without a unique solution

The solution of `A c = b` that comes nearest, and of several the shortest, is the pseudo-inverse of
`A` applied to `b`. It is read off a basis of directions whose images under `A` are at right angles.
Such a basis is found by turning pairs of directions in their plane until no pair needs it.

Main definitions: `Axis` pairs a direction with its image, `Axis.turn` sets two images at right
angles, and `pseudoSolve` solves.
-/

namespace SignalCalc

/-- A direction with its image under the matrix. -/
structure Axis (α : Type) where
  image : List α
  direction : List α

variable {α : Type} [Zero α] [One α] [Neg α] [Add α] [Sub α] [Mul α] [Div α] [NatCast α]
  [LT α] [DecidableLT α] [LE α] [DecidableLE α] [Elementary α]

/-- The product of two vectors. -/
def dot (u v : List α) : α := (List.zipWith (· * ·) u v).foldl (· + ·) 0

/-- The combination `s * u + t * v`. -/
def combination (s : α) (u : List α) (t : α) (v : List α) : List α :=
  List.zipWith (fun a b => s * a + t * b) u v

@[simp] theorem length_combination {β : Type} [Add β] [Mul β] (s : β) (u : List β) (t : β)
    (v : List β) : (combination s u t v).length = min u.length v.length :=
  List.length_zipWith

namespace Axis

/-- The combination of two axes. -/
def combine (s : α) (p : Axis α) (t : α) (q : Axis α) : Axis α :=
  ⟨combination s p.image t q.image, combination s p.direction t q.direction⟩

/-- Turns two axes in their plane so that their images are at right angles. Images that are so up to
rounding stay as they are; the flag says whether the axes were turned. -/
def turn (p q : Axis α) : Bool × Axis α × Axis α :=
  let pp := dot p.image p.image
  let qq := dot q.image q.image
  let pq := dot p.image q.image
  if Elementary.abs pq ≤ roundingError * Elementary.sqrt (pp * qq) then (false, p, q)
  else
    let zeta := (qq - pp) / (pq + pq)
    let size := 1 / (Elementary.abs zeta + Elementary.sqrt (1 + zeta * zeta))
    let tangent := if zeta < 0 then -size else size
    let cosine := 1 / Elementary.sqrt (1 + tangent * tangent)
    let sine := cosine * tangent
    (true, combine cosine p (-sine) q, combine sine p cosine q)

/-- Turns one axis against each of a list. -/
def turnAgainst (p : Axis α) : List (Axis α) → Bool × Axis α × List (Axis α)
  | [] => (false, p, [])
  | q :: qs =>
    let (turned, p, q) := p.turn q
    let (turnedLater, p, qs) := p.turnAgainst qs
    (turned || turnedLater, p, q :: qs)

@[simp] theorem length_turnAgainst (p : Axis α) (qs : List (Axis α)) :
    (p.turnAgainst qs).2.2.length = qs.length := by
  induction qs generalizing p with
  | nil => rfl
  | cons q qs ih => simp [turnAgainst, ih]

/-- Turns every pair of axes once. -/
def sweep : List (Axis α) → Bool × List (Axis α)
  | [] => (false, [])
  | p :: ps =>
    let turned := p.turnAgainst ps
    let later := sweep turned.2.2
    (turned.1 || later.1, turned.2.1 :: later.2)
termination_by axes => axes.length
decreasing_by simp

/-- Sweeps until no pair is turned, at most a given number of times. -/
def settle : Nat → List (Axis α) → List (Axis α)
  | 0, axes => axes
  | n + 1, axes =>
    let (turned, axes) := sweep axes
    if turned then settle n axes else axes

end Axis

/-- The axes of the coordinates, for a matrix given by its columns. -/
def coordinateAxes (columns : List (List α)) : List (Axis α) :=
  columns.zipIdx.map fun (column, j) =>
    ⟨column, (List.range columns.length).map fun i => if i = j then 1 else 0⟩

/-- The greatest magnitude of the entries of a matrix. -/
def largestEntry (columns : List (List α)) : α :=
  columns.flatten.foldl (fun m c => if m < Elementary.abs c then Elementary.abs c else m) 0

/-- The pseudo-inverse of a matrix, given by its columns, applied to a vector. Images shorter than
the rounding errors of the longest one, summed over the columns, count as zero. The matrix is
scaled to entries up to one first, so that no square overflows. -/
def pseudoSolve (columns : List (List α)) (rhs : List α) : List α :=
  let scale := largestEntry columns
  let axes := Axis.settle 60 (coordinateAxes (columns.map (·.map (· / scale))))
  let lengths := axes.map fun p => Elementary.sqrt (dot p.image p.image)
  let longest := lengths.foldl (fun m l => if m < l then l else m) 0
  let least := roundingError * (columns.length : α) * longest
  (axes.zip lengths).foldl
    (fun sum (p, length) =>
      if least < length then
        combination 1 sum (dot p.image rhs / length / length / scale) p.direction
      else sum)
    (List.replicate columns.length 0)

end SignalCalc
