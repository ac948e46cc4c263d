import SignalCalc.Filter.TransferFunction

/-!
# Filter design

The classical filters by order, frequency and damping. A band filter is made of a low pass and a
high pass at its edges: in series they pass a band, in parallel they stop one.
-/

namespace SignalCalc

/-- What a filter does. -/
inductive FilterKind where
  | lowPass
  | highPass
  | bandPass
  | bandStop
  | notch
  /-- A transfer function given by two expressions. -/
  | custom
deriving DecidableEq, Repr, Inhabited

namespace FilterKind

/-- All kinds of filters. -/
def all : List FilterKind := [lowPass, highPass, bandPass, bandStop, notch, custom]

/-- The name in settings. -/
def name : FilterKind → String
  | lowPass => "LowPass"
  | highPass => "HighPass"
  | bandPass => "BandPass"
  | bandStop => "BandStop"
  | notch => "Notch"
  | custom => "Custom"

/-- The kind with a name. -/
def ofName? (name : String) : Option FilterKind := all.find? (·.name == name)

end FilterKind

/-- The settings of a filter. Frequencies are in hertz. -/
structure FilterSettings (α : Type) where
  kind : FilterKind
  order : Nat
  /-- The cutoff, or the middle of a band or notch. -/
  cutoff : α
  damping : α
  /-- The width of a band or notch. -/
  width : α
  /-- Whether the data runs through the filter backwards too, which takes the delay out. -/
  phaseless : Bool
  /-- Whether the poles lie on a circle, whatever the damping. -/
  butterworth : Bool
  /-- The expressions of a custom filter. -/
  numerator : String
  denominator : String

namespace FilterSettings

variable {α : Type} [Zero α] [One α] [Neg α] [Add α] [Sub α] [Mul α] [Div α] [NatCast α]
  [OfScientific α] [LT α] [DecidableLT α] [BEq α] [Elementary α]

/-- A low pass of first order at one hertz, with the damping of the half power point. -/
def default : FilterSettings α where
  kind := .lowPass
  order := 1
  cutoff := 1
  damping := 0.7071067811865476
  width := 0
  phaseless := false
  butterworth := false
  numerator := ""
  denominator := ""

/-- The highest order of a filter. A band filter is of twice the order. -/
def maxOrder : Nat := Poly.maxDegree / 2

/-- A positive number. -/
def isPositive (x : α) : Bool := isFinite x && decide (0 < x)

/-- The angular frequency of a frequency in hertz, which must be positive. -/
def angular (role : FrequencyRole) (hertz : α) : Except (Error α) α :=
  if isPositive hertz then .ok (2.0 * Elementary.pi * hertz)
  else .error (.invalidParameter (.frequency role hertz))

/-- The angle of pole `k` of a Butterworth filter of order `n`, counted from one: the poles divide
the left half of a circle evenly. -/
def poleAngle (n k : Nat) : α :=
  Elementary.pi * (2.0 * (k : α) + (n : α) - 1.0) / (2.0 * (n : α))

/-- The denominator of a Butterworth low pass. -/
def butterworthDenominator (n : Nat) (omega : α) : Poly α :=
  Poly.ofRoots ((List.range n).map fun k => Cplx.ofPolar omega (poleAngle n (k + 1)))

/-- The denominator of a low pass made of damped sections of second order, with one section of first
order if the order is odd. -/
def sectionDenominator (n : Nat) (omega damping : α) : Poly α :=
  let second := Poly.ofList [omega * omega, 2.0 * damping * omega, 1]
  let even := second.pow (n / 2)
  if n % 2 = 1 then even * Poly.ofList [omega, 1] else even

/-- The denominator that the low pass and the high pass at an angular frequency share. -/
def denominatorAt (s : FilterSettings α) (omega : α) : Poly α :=
  if s.butterworth then butterworthDenominator s.order omega
  else sectionDenominator s.order omega s.damping

/-- Refuses an order or a damping that no classical filter has. -/
def checkShape (s : FilterSettings α) : Except (Error α) Unit := do
  if s.order = 0 then throw (.invalidParameter .orderZero)
  if maxOrder < s.order then throw (.invalidParameter (.order maxOrder s.order))
  if !s.butterworth && !isPositive s.damping then
    throw (.invalidParameter (.damping s.damping))

/-- The low pass at a frequency. -/
def lowPass (s : FilterSettings α) (hertz : α) : Except (Error α) (TransferFunction α) := do
  let denominator := s.denominatorAt (← angular .cutoff hertz)
  TransferFunction.make (Poly.const (denominator.coeff 0)) denominator

/-- The high pass at a frequency. -/
def highPass (s : FilterSettings α) (hertz : α) : Except (Error α) (TransferFunction α) := do
  let denominator := s.denominatorAt (← angular .cutoff hertz)
  TransferFunction.make (Poly.monomial s.order) denominator

/-- The frequencies at which a band begins and ends. -/
def bandEdges (s : FilterSettings α) : Except (Error α) (α × α) := do
  if !isPositive s.width then throw (.invalidParameter (.bandWidth s.width))
  let low := s.cutoff - 0.5 * s.width
  let high := s.cutoff + 0.5 * s.width
  let _ ← angular .lowerEdge low
  return (low, high)

/-- The filter that passes a band. -/
def bandPass (s : FilterSettings α) : Except (Error α) (TransferFunction α) := do
  let (low, high) ← s.bandEdges
  let hp ← s.highPass low
  let lp ← s.lowPass high
  TransferFunction.make (hp.numerator * lp.numerator) (hp.denominator * lp.denominator)

/-- The filter that stops a band. -/
def bandStop (s : FilterSettings α) : Except (Error α) (TransferFunction α) := do
  let (low, high) ← s.bandEdges
  let lp ← s.lowPass low
  let hp ← s.highPass high
  TransferFunction.make (lp.numerator * hp.denominator + hp.numerator * lp.denominator)
    (lp.denominator * hp.denominator)

/-- The filter that stops one frequency. -/
def notch (s : FilterSettings α) : Except (Error α) (TransferFunction α) := do
  let omega ← angular .notchCenter s.cutoff
  let bandwidth ← angular .notchWidth s.width
  TransferFunction.make (Poly.ofList [omega * omega, 0, 1])
    (Poly.ofList [omega * omega, bandwidth, 1])

/-- The transfer function that the settings describe. -/
def transferFunction (s : FilterSettings α) : Except (Error α) (TransferFunction α) := do
  match s.kind with
  | .lowPass => s.checkShape; s.lowPass s.cutoff
  | .highPass => s.checkShape; s.highPass s.cutoff
  | .bandPass => s.checkShape; s.bandPass
  | .bandStop => s.checkShape; s.bandStop
  | .notch => s.notch
  | .custom => TransferFunction.parse s.numerator s.denominator

end FilterSettings

end SignalCalc
