import SignalCalc.Filter.Bilinear
import SignalCalc.Filter.Design
import SignalCalc.Filter.History

/-!
# Digital filters

A digital filter computes each output from the last inputs and the outputs before it:

`y[n] = b[0] u[n] + b[1] u[n-1] + … - a[1] y[n-1] - a[2] y[n-2] - …`

with `a[0]` normalized to one. It is driven sample by sample and keeps the two histories.
-/

namespace SignalCalc

/-- How far a filter has come. -/
inductive FilterState where
  /-- No sample yet; the histories are zero. -/
  | uninitialized
  /-- The histories have been set to a steady state. -/
  | initialized
  /-- Samples have been applied. -/
  | running
deriving DecidableEq, Repr

/-- A filter with its normalized coefficients, its last inputs and outputs, and its last output. -/
structure DigitalFilter (α : Type) where
  b : List α
  a : List α
  inputs : History α
  outputs : History α
  output : α
  state : FilterState

namespace DigitalFilter

variable {α : Type} [Zero α] [One α] [Neg α] [Add α] [Sub α] [Mul α] [Div α] [NatCast α]
  [OfScientific α] [LT α] [DecidableLT α] [LE α] [DecidableLE α] [BEq α] [Elementary α]

/-- The greatest magnitude in a list, zero for the empty list. Undefined entries are passed over. -/
def largest (cs : List α) : α :=
  cs.foldl (fun m c => if m ≤ Elementary.abs c then Elementary.abs c else m) 0

/-- The filter with the given coefficients, by ascending powers of `1 / z`. All are divided by the
leading coefficient of the denominator, which counts as zero if it is no more than the rounding
error of the greatest one. -/
def ofCoefficients (b a : List α) : Except (Error α) (DigitalFilter α) :=
  match b, a with
  | _ :: _, a₀ :: feedback =>
    if !isFinite a₀ || decide (Elementary.abs a₀ ≤ roundingError * largest a) then
      .error (.degenerate (.leading a₀))
    else
      .ok {
        b := b.map (· / a₀)
        a := a.map (· / a₀)
        inputs := .zeros b.length
        outputs := .zeros feedback.length
        output := 0
        state := .uninitialized }
  | _, _ => .error (.invalidParameter .noCoefficients)

omit [Neg α] [Add α] [OfScientific α] [LT α] [DecidableLT α] in
/-- A filter can be made of coefficients on both sides with a leading one that it can be divided by.
It starts with zeros. -/
theorem ofCoefficients_eq_ok_iff {b a : List α} {f : DigitalFilter α} :
    ofCoefficients b a = .ok f ↔ ∃ a₀ feedback, b ≠ [] ∧ a = a₀ :: feedback ∧
      isFinite a₀ = true ∧ ¬Elementary.abs a₀ ≤ roundingError * largest a ∧
      f = {
        b := b.map (· / a₀)
        a := a.map (· / a₀)
        inputs := .zeros b.length
        outputs := .zeros feedback.length
        output := 0
        state := .uninitialized } := by
  constructor
  · intro h
    unfold ofCoefficients at h
    split at h
    · next b₀ bs a₀ feedback =>
      split at h
      · cases h
      · next hg =>
        simp only [Bool.or_eq_true, Bool.not_eq_true', decide_eq_true_eq, not_or,
          Bool.not_eq_false] at hg
        cases h
        exact ⟨a₀, feedback, nofun, rfl, hg.1, hg.2, rfl⟩
    · cases h
  · rintro ⟨a₀, feedback, hb, rfl, hf, hg, rfl⟩
    obtain ⟨b₀, bs, rfl⟩ := List.exists_cons_of_ne_nil hb
    rw [ofCoefficients, hf, decide_eq_false hg]
    rfl

/-- The discrete form of a transfer function. -/
def ofTransferFunction (rate : α) (h : TransferFunction α) : Except (Error α) (DigitalFilter α) := do
  let (b, a) ← h.bilinear rate
  ofCoefficients b a

/-- The discrete form of the quotient of two expressions in `s`. -/
def ofExpressions (rate : α) (numerator denominator : String) :
    Except (Error α) (DigitalFilter α) := do
  ofTransferFunction rate (← TransferFunction.parse numerator denominator)

/-- The filter with the given settings. -/
def ofSettings (rate : α) (settings : FilterSettings α) : Except (Error α) (DigitalFilter α) := do
  ofTransferFunction rate (← settings.transferFunction)

/-- The ratio of output to input for a constant input, once it has settled. -/
def steadyGain (f : DigitalFilter α) : α := total f.b / total f.a

/-- The filter as it is after a constant input that has gone on for ever. Without a finite gain the
output is taken to be zero. -/
def settle (f : DigitalFilter α) (v : α) : DigitalFilter α :=
  let gain := f.steadyGain
  let y := if isFinite gain then v * gain else 0
  { f with
    inputs := f.inputs.fill v
    outputs := f.outputs.fill y
    output := y
    state := .initialized }

/-- The sum of coefficients times the values of a history, the newest value first. -/
def weighted (cs : List α) (h : History α) : α :=
  total (cs.zipIdx.map fun (c, k) => c * h.get k)

/-- The filter after one more sample. Its output is the new one. -/
def apply (f : DigitalFilter α) (u : α) : DigitalFilter α :=
  let inputs := f.inputs.push u
  let y := weighted f.b inputs - weighted (f.a.drop 1) f.outputs
  { f with
    inputs
    outputs := f.outputs.push y
    output := y
    state := .running }

/-- The outputs for a list of samples, and the filter after them. -/
def applyAll (f : DigitalFilter α) : List α → List α × DigitalFilter α
  | [] => ([], f)
  | u :: us =>
    let f := f.apply u
    let (ys, last) := f.applyAll us
    (f.output :: ys, last)

/-- The value of a list of coefficients on the unit circle, at an angle in radians per sample. -/
def onCircle (cs : List α) (theta : α) : Cplx α :=
  Cplx.sum (cs.zipIdx.map fun (c, k) => Cplx.ofPolar c (-(k : α) * theta))

/-- The response at an angle in radians per sample. -/
def response (f : DigitalFilter α) (theta : α) : Cplx α :=
  onCircle f.b theta / onCircle f.a theta

end DigitalFilter

end SignalCalc
