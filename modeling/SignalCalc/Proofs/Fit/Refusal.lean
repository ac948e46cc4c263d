import SignalCalc.Fit.Polynomial
import SignalCalc.Proofs.Double.Whole
import SignalCalc.Proofs.Outcome

/-!
# Fits that are refused

Whether there are enough samples for a fit is decided from two counts (`unknowns`), before any
sample is read. After that the normal equations are checked, all their sums of powers and products.
If these are finite, the threshold up to which singular values count as zero is not negative
(`zero_le_threshold`): the rounding error for each of the coefficients is a positive double, however
many there are, so its product with the greatest singular value is never undefined. The
decomposition is then asked for nothing that it cannot give.

The coefficients are counted in 64 bits, and the greatest order has too many for that. It is refused
as such, and not because samples are missing (`unknowns_greatest_order`).

Main definitions: `Decomposition`, `ofSeriesThrough`, `IsClassified`. Main statement:
`fits_are_classified`.
-/

namespace SignalCalc

/-! ## The dimension of axes -/

/-- A sum of multiples of directions has their dimension. -/
theorem Axis.length_foldl_directions {α : Type} [One α] [Add α] [Mul α] {n : Nat}
    (keep : Axis α × α → Prop) [DecidablePred keep] (weight : Axis α × α → α)
    {axes : List (Axis α × α)} {sum : List α} (hsum : sum.length = n)
    (h : ∀ p ∈ axes, p.1.direction.length = n) :
    (axes.foldl (fun sum p =>
      if keep p then combination 1 sum (weight p) p.1.direction else sum) sum).length = n := by
  induction axes generalizing sum with
  | nil => exact hsum
  | cons p axes ih =>
    obtain ⟨hp, haxes⟩ := List.forall_mem_cons.1 h
    rw [List.foldl_cons]
    split
    · exact ih (by simp [hsum, hp]) haxes
    · exact ih hsum haxes

section Axes

variable {α : Type} [Zero α] [One α] [Neg α] [Add α] [Sub α] [Mul α] [Div α] [NatCast α]
  [LT α] [DecidableLT α] [LE α] [DecidableLE α] [Elementary α] {n : Nat}

namespace Axis

/-- Two axes that are turned keep the length of their directions. -/
theorem length_turn {p q : Axis α} (hp : p.direction.length = n) (hq : q.direction.length = n) :
    (p.turn q).2.1.direction.length = n ∧ (p.turn q).2.2.direction.length = n := by
  unfold turn
  dsimp only
  split
  · exact ⟨hp, hq⟩
  · simp [combine, hp, hq]

/-- An axis that is turned against others keeps the length of all directions. -/
theorem length_of_mem_turnAgainst {p : Axis α} {qs : List (Axis α)} (hp : p.direction.length = n)
    (hqs : ∀ q ∈ qs, q.direction.length = n) :
    (p.turnAgainst qs).2.1.direction.length = n ∧
      ∀ q ∈ (p.turnAgainst qs).2.2, q.direction.length = n := by
  induction qs generalizing p with
  | nil => exact ⟨hp, nofun⟩
  | cons q qs ih =>
    obtain ⟨hq, hqs⟩ := List.forall_mem_cons.1 hqs
    obtain ⟨hp, hq⟩ := length_turn hp hq
    obtain ⟨hp, hqs⟩ := ih hp hqs
    exact ⟨hp, List.forall_mem_cons.2 ⟨hq, hqs⟩⟩

/-- A sweep over all pairs of axes keeps the length of their directions. -/
theorem length_of_mem_sweep {axes : List (Axis α)} (h : ∀ p ∈ axes, p.direction.length = n) :
    ∀ p ∈ (sweep axes).2, p.direction.length = n := by
  induction axes using sweep.induct with
  | case1 => simp [sweep]
  | case2 p ps turned ih =>
    obtain ⟨hp, hps⟩ := List.forall_mem_cons.1 h
    obtain ⟨hp, hps⟩ := length_of_mem_turnAgainst hp hps
    rw [sweep]
    exact List.forall_mem_cons.2 ⟨hp, ih hps⟩

/-- Sweeps keep the length of all directions, by induction on their number. -/
theorem length_of_mem_settle (k : Nat) {axes : List (Axis α)}
    (h : ∀ p ∈ axes, p.direction.length = n) :
    ∀ p ∈ settle k axes, p.direction.length = n := by
  induction k generalizing axes with
  | zero => exact h
  | succ k ih =>
    rw [settle]
    dsimp only
    split
    · exact ih (length_of_mem_sweep h)
    · exact length_of_mem_sweep h

end Axis

/-! ## Decompositions -/

/-- A decomposition of a matrix by singular values, as far as a fit uses it. -/
structure Decomposition (α : Type) where
  /-- The greatest singular value. -/
  greatest : α
  /-- The pseudo-inverse applied to a right-hand side, where singular values up to a threshold count
  as zero. None if the pseudo-inverse cannot be formed. -/
  solve? : α → List α → Option (List α)

/-- The decomposition by axes whose images are at right angles. The lengths of the images are the
singular values of the matrix scaled to entries up to one. -/
def axisDecomposition (columns : List (List α)) : Decomposition α :=
  let scale := largestEntry columns
  let axes := Axis.settle 60 (coordinateAxes (columns.map (·.map (· / scale))))
  let lengths := axes.map fun p => Elementary.sqrt (dot p.image p.image)
  { greatest := lengths.foldl (fun m l => if m < l then l else m) 0
    solve? threshold rhs := some <| (axes.zip lengths).foldl
      (fun sum (p, length) =>
        if threshold < length then
          combination 1 sum (dot p.image rhs / length / length / scale) p.direction
        else sum)
      (List.replicate columns.length 0) }

/-- The threshold up to which singular values count as zero: the rounding errors of the greatest
one, summed over the coefficients. -/
def Decomposition.threshold (d : Decomposition α) (terms : Nat) : α :=
  roundingError * (terms : α) * d.greatest

/-- At the threshold of a fit the decomposition by axes solves as the fit does. -/
theorem solve?_axisDecomposition (columns : List (List α)) (rhs : List α) :
    (axisDecomposition columns).solve? ((axisDecomposition columns).threshold columns.length) rhs =
      some (pseudoSolve columns rhs) :=
  rfl

/-- The decomposition by axes forms its pseudo-inverse at any threshold. -/
theorem exists_solve?_axisDecomposition (columns : List (List α)) (threshold : α) (rhs : List α) :
    ∃ cs, (axisDecomposition columns).solve? threshold rhs = some cs ∧
      cs.length = columns.length := by
  have hstart : ∀ p ∈ coordinateAxes (columns.map (·.map (· / largestEntry columns))),
      p.direction.length = columns.length := by
    intro p hp
    obtain ⟨⟨column, j⟩, -, rfl⟩ := List.mem_map.1 hp
    simp
  refine ⟨_, rfl, Axis.length_foldl_directions (threshold < ·.2) _ (by simp) fun p hp => ?_⟩
  exact Axis.length_of_mem_settle 60 hstart p.1 (List.of_mem_zip hp).1

end Axes

section Decompose

variable {α : Type} [Zero α] [Sub α] [LE α] [BEq α]

/-- A square matrix of finite entries, given by its columns. -/
structure IsFiniteSquare (columns : List (List α)) : Prop where
  ne_nil : columns ≠ []
  length_eq : ∀ column ∈ columns, column.length = columns.length
  isFinite_of_mem : ∀ column ∈ columns, ∀ c ∈ column, isFinite c = true

/-- Singular values are not negative, and at a threshold that is not negative the pseudo-inverse is
formed. It gives a coefficient for every column. -/
def DecomposesFinite (decompose : List (List α) → Decomposition α) : Prop :=
  ∀ columns, IsFiniteSquare columns →
    0 ≤ (decompose columns).greatest ∧
    ∀ threshold rhs, 0 ≤ threshold → rhs.length = columns.length →
      ∃ cs, (decompose columns).solve? threshold rhs = some cs ∧ cs.length = columns.length

end Decompose

/-- The greatest of numbers is not negative if the first one is not. -/
theorem zero_le_foldl_greater {x : Float} (hx : 0 ≤ x) (ls : List Float) :
    0 ≤ ls.foldl (fun m l => if m < l then l else m) x := by
  induction ls generalizing x with
  | nil => exact hx
  | cons l ls ih =>
    rw [List.foldl_cons]
    split
    · next h => exact ih (Double.zero_le_of_lt hx h)
    · exact ih hx

/-- The decomposition by axes is one that fits can rely on. -/
theorem decomposesFinite_axisDecomposition :
    DecomposesFinite (axisDecomposition : List (List Float) → Decomposition Float) := by
  intro columns _
  have hzero : (0 : Float) ≤ 0 := by decide +kernel
  exact ⟨zero_le_foldl_greater hzero _, fun threshold rhs _ _ =>
    exists_solve?_axisDecomposition columns threshold rhs⟩

/-- For a 64-bit number of coefficients the threshold is not negative. -/
theorem zero_le_threshold {d : Decomposition Float} (h : 0 ≤ d.greatest) {terms : Nat}
    (hpos : 0 < terms) (hword : terms < wordBound) : 0 ≤ d.threshold terms :=
  Double.mul_nonneg_of_pos (Double.value_roundingError_mul_pos hpos hword) h

namespace PolynomialFit

/-! ## Counting coefficients -/

section Count

variable {α : Type} [Zero α] [BEq α] {size order : Nat}

/-- The number of coefficients of a fit, if it can be counted in 64 bits and there are as many
samples. -/
def unknowns (size order : Nat) : Except (Error α) Nat :=
  if wordBound ≤ order + 1 then .error (.orderOverflow order)
  else if size < order + 1 then .error (.illPosedFit order (order + 1) size)
  else .ok (order + 1)

/-- The coefficients of the greatest order cannot be counted in 64 bits. -/
theorem unknowns_greatest_order (h : order + 1 = wordBound) :
    unknowns size order = (.error (.orderOverflow order) : Except (Error α) Nat) :=
  if_pos h.ge

/-- A fit without more samples than its order is refused with the counts of both. -/
theorem unknowns_of_le (h : order + 1 < wordBound) (hsize : size ≤ order) :
    unknowns size order =
      (.error (.illPosedFit order (order + 1) size) : Except (Error α) Nat) := by
  rw [unknowns, if_neg (not_le.2 h), if_pos (Nat.lt_succ_of_le hsize)]

/-- With more samples than its order a fit has one coefficient more than the order. -/
theorem unknowns_of_lt (h : order + 1 < wordBound) (hsize : order < size) :
    unknowns size order = (.ok (order + 1) : Except (Error α) Nat) := by
  rw [unknowns, if_neg (not_le.2 h), if_neg (not_lt.2 hsize)]

end Count

/-! ## The fit through a decomposition -/

section Fit

variable {α : Type} [Zero α] [One α] [Neg α] [Add α] [Sub α] [Mul α] [Div α] [NatCast α]
  [LT α] [DecidableLT α] [LE α] [DecidableLE α] [BEq α] [Elementary α]

/-- The entries of the normal equations, the right-hand side included. -/
def normalEntries (s : Series α) (order : Nat) : List α :=
  (normalMatrix (powerColumns s.xs order)).flatten ++ normalRhs (powerColumns s.xs order) s.ys

/-- The fit of an order by means of a decomposition of the matrix of the normal equations. -/
def ofSeriesThrough (decompose : List (List α) → Decomposition α) (s : Series α) (order : Nat) :
    Except (Error α) (PolynomialFit α) := do
  let terms ← unknowns s.size order
  if !(normalEntries s order).all isFinite then throw (.singularMatrix order)
  let columns := powerColumns s.xs order
  let d := decompose (normalMatrix columns)
  match d.solve? (d.threshold terms) (normalRhs columns s.ys) with
  | none => throw (.singularMatrix order)
  | some cs => return ⟨order, cs, determination cs s⟩

/-- The fit of an order is the one through the decomposition by axes. -/
theorem ofSeries_eq_ofSeriesThrough (s : Series α) (order : Nat) :
    ofSeries s order = ofSeriesThrough axisDecomposition s order := by
  have hsolve := solve?_axisDecomposition (normalMatrix (powerColumns s.xs order))
    (normalRhs (powerColumns s.xs order) s.ys)
  rw [length_normalMatrix, length_powerColumns] at hsolve
  simp only [ofSeries, ofSeriesBy, ofSeriesThrough, unknowns, normalEntries, List.all_append,
    List.all_flatten]
  split
  · rfl
  · split
    · rfl
    · simp only [ok_bind, hsolve]
      split <;> rfl

end Fit

/-! ## How fits of doubles end -/

section Outcome

variable {s : Series Float} {order : Nat}

/-- An entry of the normal equations, a sum of powers or products over the samples, is undefined or
infinite. -/
def HasNonFiniteEntry (s : Series Float) (order : Nat) : Prop :=
  ∃ c ∈ normalEntries s order, c.isNaN = true ∨ c.isInf = true

instance : Decidable (HasNonFiniteEntry s order) :=
  inferInstanceAs (Decidable (∃ c ∈ normalEntries s order, c.isNaN = true ∨ c.isInf = true))

/-- The check of the normal equations passes if no entry is undefined or infinite. -/
theorem all_isFinite_iff :
    (normalEntries s order).all isFinite = true ↔ ¬HasNonFiniteEntry s order := by
  simp only [HasNonFiniteEntry, ← Double.isFinite_eq_false_iff, List.all_eq_true, not_exists,
    not_and, Bool.not_eq_false]

/-- What the fit of an order must end with. Samples are missing if there are not more of them than
the order says. Otherwise the equations are singular if one of their entries is not finite, and
there is a fit with all its coefficients if each of them is. -/
structure IsClassified (s : Series Float) (order : Nat)
    (outcome : Except (Error Float) (PolynomialFit Float)) : Prop where
  illPosed : ∀ k required available,
    outcome = .error (.illPosedFit k required available) ↔
      s.size ≤ order ∧ k = order ∧ required = order + 1 ∧ available = s.size
  singular : ∀ k,
    outcome = .error (.singularMatrix k) ↔
      order < s.size ∧ HasNonFiniteEntry s order ∧ k = order
  fitted : order < s.size → ¬HasNonFiniteEntry s order →
    ∃ fit, outcome = .ok fit ∧ fit.order = order ∧ fit.coefficients.length = order + 1

/-- The refusal of a fit with too few samples. -/
theorem isClassified_illPosed (h : s.size ≤ order) :
    IsClassified s order (.error (.illPosedFit order (order + 1) s.size)) where
  illPosed k required available := by simp [h, eq_comm]
  singular k := by simp [h]
  fitted hlt := absurd hlt (not_lt.2 h)

/-- The refusal of a fit whose equations have an entry that is not finite. -/
theorem isClassified_singular (h : order < s.size) (hentry : HasNonFiniteEntry s order) :
    IsClassified s order (.error (.singularMatrix order)) where
  illPosed k required available := by simp [h]
  singular k := by simp [h, hentry, eq_comm]
  fitted _ hfinite := absurd hentry hfinite

/-- The fit that is made if nothing stands against it. -/
theorem isClassified_fitted {fit : PolynomialFit Float} (h : order < s.size)
    (hfinite : ¬HasNonFiniteEntry s order) (horder : fit.order = order)
    (hlength : fit.coefficients.length = order + 1) : IsClassified s order (.ok fit) where
  illPosed k required available := by simp [h]
  singular k := by simp [hfinite]
  fitted _ _ := ⟨fit, rfl, horder, hlength⟩

variable {decompose : List (List Float) → Decomposition Float}

/-- What the counts refuse is refused without samples or a decomposition. -/
theorem ofSeriesThrough_eq_error {e : Error Float} (h : unknowns s.size order = .error e) :
    ofSeriesThrough decompose s order = .error e := by
  rw [ofSeriesThrough, h, error_bind]

/-- Equations with an entry that is not finite are refused, whatever the decomposition. -/
theorem ofSeriesThrough_of_hasNonFiniteEntry (h : order + 1 < wordBound) (hsize : order < s.size)
    (hentry : HasNonFiniteEntry s order) :
    ofSeriesThrough decompose s order = .error (.singularMatrix order) := by
  have hall : (normalEntries s order).all isFinite = false :=
    eq_false_of_ne_true fun hall => all_isFinite_iff.1 hall hentry
  rw [ofSeriesThrough, unknowns_of_lt h hsize, ok_bind, hall]
  rfl

/-- The matrix of finite normal equations is square and finite, so it can be decomposed. -/
theorem isFiniteSquare_normalMatrix (h : ¬HasNonFiniteEntry s order) :
    IsFiniteSquare (normalMatrix (powerColumns s.xs order)) where
  ne_nil := List.ne_nil_of_length_pos (by simp)
  length_eq := by simp [normalMatrix]
  isFinite_of_mem column hcolumn c hc :=
    List.all_eq_true.1 (all_isFinite_iff.2 h) c
      (List.mem_append_left _ (List.mem_flatten.2 ⟨column, hcolumn, hc⟩))

/-- The decomposition is asked at a threshold that is not negative, so it answers. -/
theorem exists_ofSeriesThrough (hd : DecomposesFinite decompose) (h : order + 1 < wordBound)
    (hsize : order < s.size) (hfinite : ¬HasNonFiniteEntry s order) :
    ∃ fit, ofSeriesThrough decompose s order = .ok fit ∧ fit.order = order ∧
      fit.coefficients.length = order + 1 := by
  obtain ⟨hgreatest, hsolve⟩ := hd _ (isFiniteSquare_normalMatrix hfinite)
  obtain ⟨cs, hcs, hlength⟩ := hsolve _ (normalRhs (powerColumns s.xs order) s.ys)
    (zero_le_threshold hgreatest (Nat.succ_pos order) h) (by simp)
  rw [length_normalMatrix, length_powerColumns] at hlength
  refine ⟨⟨order, cs, determination cs s⟩, ?_, rfl, hlength⟩
  rw [ofSeriesThrough, unknowns_of_lt h hsize, ok_bind, all_isFinite_iff.2 hfinite]
  simp only [hcs]
  rfl

/-- Below the greatest order a fit ends as it must, by a case for each check. -/
theorem isClassified_ofSeriesThrough (hd : DecomposesFinite decompose)
    (h : order + 1 < wordBound) : IsClassified s order (ofSeriesThrough decompose s order) := by
  rcases Nat.lt_or_ge order s.size with hsize | hsize
  · by_cases hentry : HasNonFiniteEntry s order
    · rw [ofSeriesThrough_of_hasNonFiniteEntry h hsize hentry]
      exact isClassified_singular hsize hentry
    · obtain ⟨fit, hfit, horder, hlength⟩ := exists_ofSeriesThrough hd h hsize hentry
      rw [hfit]
      exact isClassified_fitted hsize hentry horder hlength
  · rw [ofSeriesThrough_eq_error (unknowns_of_le h hsize)]
    exact isClassified_illPosed hsize

/-- **Errors of fits.** An order below the greatest one of 64 bits is refused for missing samples
from the counts alone, whatever the decomposition would do. If there are more samples than the order
says, and the decomposition gives the pseudo-inverse of a finite matrix at every threshold that is
not negative, the fit is refused for singular equations if one of their entries is undefined or
infinite, and has a coefficient for each power if none is. The decomposition by axes is such a one,
so this is how the fits of the library end. The greatest order is refused as one with too many
coefficients to count. -/
theorem fits_are_classified (s : Series Float) (order : Nat) :
    (order + 1 < wordBound →
      (s.size ≤ order → ∀ decompose, ofSeriesThrough decompose s order =
        .error (.illPosedFit order (order + 1) s.size)) ∧
      (∀ decompose, DecomposesFinite decompose →
        IsClassified s order (ofSeriesThrough decompose s order)) ∧
      IsClassified s order (ofSeries s order)) ∧
    (order + 1 = wordBound → ∀ decompose, ofSeriesThrough decompose s order =
      .error (.orderOverflow order)) := by
  refine ⟨fun h => ⟨fun hsize decompose => ofSeriesThrough_eq_error (unknowns_of_le h hsize),
    fun decompose hd => isClassified_ofSeriesThrough hd h, ?_⟩,
    fun h decompose => ofSeriesThrough_eq_error (unknowns_greatest_order h)⟩
  rw [ofSeries_eq_ofSeriesThrough]
  exact isClassified_ofSeriesThrough decomposesFinite_axisDecomposition h

/-- Three samples of a line, the same with a gap in their positions, and the two greatest orders. -/
theorem fits_are_classified_line :
    let s : Series Float := ⟨[⟨0, 1⟩, ⟨1, 3⟩, ⟨2, 5⟩]⟩
    let gap : Series Float := ⟨[⟨0, 1⟩, ⟨0 / 0, 3⟩, ⟨2, 5⟩]⟩
    DecomposesFinite (axisDecomposition : List (List Float) → Decomposition Float) ∧
    (∃ fit, ofSeriesThrough axisDecomposition s 1 = .ok fit ∧ fit.order = 1 ∧
      fit.coefficients.length = 2) ∧
    ofSeries gap 1 = .error (.singularMatrix 1) ∧
    ofSeriesThrough axisDecomposition s (2 ^ 64 - 2) =
      .error (.illPosedFit (2 ^ 64 - 2) (2 ^ 64 - 1) 3) ∧
    ofSeriesThrough axisDecomposition s (2 ^ 64 - 1) = .error (.orderOverflow (2 ^ 64 - 1)) := by
  intro s gap
  have hone : 1 + 1 < wordBound := by decide
  have hdecompose := decomposesFinite_axisDecomposition
  have hfinite : ¬HasNonFiniteEntry s 1 := by decide +kernel
  have hgap : HasNonFiniteEntry gap 1 := by decide +kernel
  obtain ⟨-, hthrough, -⟩ := (fits_are_classified s 1).1 hone
  obtain ⟨-, -, hown⟩ := (fits_are_classified gap 1).1 hone
  obtain ⟨hmissing, -, -⟩ := (fits_are_classified s (2 ^ 64 - 2)).1 (by decide)
  exact ⟨hdecompose, (hthrough _ hdecompose).fitted (by decide) hfinite,
    (hown.singular 1).2 ⟨by decide, hgap, rfl⟩, hmissing (by decide) _,
    (fits_are_classified s (2 ^ 64 - 1)).2 (by decide) _⟩

/-- One sample and the greatest order: samples are missing, but this is not what the fit is refused
for. -/
theorem fits_are_classified_greatest_order :
    let s : Series Float := ⟨[⟨0, 1⟩]⟩
    s.size ≤ 2 ^ 64 - 1 ∧ ofSeries s (2 ^ 64 - 1) = .error (.orderOverflow (2 ^ 64 - 1)) ∧
      ofSeries s (2 ^ 64 - 1) ≠ .error (.illPosedFit (2 ^ 64 - 1) (2 ^ 64 - 1 + 1) s.size) := by
  intro s
  have hoverflow : ofSeries s (2 ^ 64 - 1) = .error (.orderOverflow (2 ^ 64 - 1)) := by
    rw [ofSeries_eq_ofSeriesThrough]
    exact ofSeriesThrough_eq_error (unknowns_greatest_order (by decide))
  refine ⟨by decide, hoverflow, ?_⟩
  rw [hoverflow]
  exact nofun

end Outcome

end PolynomialFit

end SignalCalc
