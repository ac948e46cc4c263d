import SignalCalc.Poly.Text
import SignalCalc.Spectrum.Window

/-!
# What can go wrong

An `Error` is a cause: it holds what the computation knew when it stopped. The wording is in the
`message` functions alone.
-/

namespace SignalCalc

/-- Why an expression is no polynomial. -/
inductive NotPolynomial (α : Type) [Zero α] [BEq α] where
  /-- A dataset has no place in a polynomial. -/
  | dataset (reference : String)
  /-- The divisor depends on the variable. -/
  | divisor (q : Poly α)
  /-- The divisor is zero, infinite or undefined. -/
  | quotient (p : Poly α) (c : α)
  | remainder (p q : Poly α)
  /-- The exponent depends on the variable. -/
  | exponent (q : Poly α)
  /-- The exponent is no natural number. -/
  | power (p : Poly α) (c : α)
  /-- The power would exceed the highest degree. -/
  | powerDegree (p : Poly α) (c : α)
  /-- The product exceeds the highest degree. -/
  | degree (n : Nat)
  /-- The argument of a function depends on the variable. -/
  | argument (function : String) (p : Poly α)
  /-- The function takes a series, not a number. -/
  | seriesFunction (function : String) (c : α)

/-- Why there is not enough data. -/
inductive Shortage where
  /-- A transform needs two samples to know their spacing. -/
  | transformSpacing (samples : Nat)
  /-- A transform needs the least block. -/
  | transformBlock (least samples : Nat)
  /-- The common samples do not fill the blocks to average over. -/
  | averages (samples count : Nat)
  /-- A filter needs two samples to know their spacing. -/
  | filterSpacing (samples : Nat)

/-- The frequencies in the settings of a filter. -/
inductive FrequencyRole where
  | cutoff
  | lowerEdge
  | notchCenter
  | notchWidth
deriving DecidableEq, Repr

/-- Why a parameter cannot be used. -/
inductive BadParameter (α : Type) where
  | spacing (dt : α)
  | blockSize (size least samples : Nat)
  | noGain (window : Window) (size : Nat)
  | overlap (share : α)
  | noAverages
  | noCoefficients
  | frequency (role : FrequencyRole) (hertz : α)
  | orderZero
  | order (most given : Nat)
  | damping (ratio : α)
  | bandWidth (width : α)
  | sampleRate (rate : α)

/-- Why a transfer function cannot be used. -/
inductive Degeneracy (α : Type) [Zero α] [BEq α] where
  | zeroDenominator
  /-- The numerator is of higher order than the denominator. -/
  | numeratorOrder (numerator denominator : Poly α)
  /-- The same, found while the function is made discrete. -/
  | improper (numerator denominator : Poly α)
  /-- The leading coefficient is too small to divide by, or not finite. -/
  | leading (coefficient : α)

/-- Why a request has no answer. Positions count the bytes of the expression before a token. -/
inductive Error (α : Type) [Zero α] [BEq α] where
  | emptyExpression
  | unbalancedParentheses
  | unknownToken (token : String) (position : Nat)
  | unknownDataset (name : String)
  | unknownFunction (name : String)
  | missingOperator (token : String) (position : Nat)
  | missingOperand (operator : String)
  | missingArgument (function : String)
  /-- A function of series was given a number. -/
  | notSeries (function : String)
  | notPolynomial (cause : NotPolynomial α)
  | lengthMismatch (xs ys : Nat)
  | insufficientData (cause : Shortage)
  | invalidParameter (cause : BadParameter α)
  | illPosedFit (order required available : Nat)
  /-- The coefficients of a fit cannot be counted in 64 bits. -/
  | orderOverflow (order : Nat)
  | degenerate (cause : Degeneracy α)
  /-- The normal equations of a fit are not finite. -/
  | singularMatrix (order : Nat)

/-! ## Wording -/

def Shortage.message : Shortage → String
  | transformSpacing samples => s!"FFT needs at least two samples, got {samples}"
  | transformBlock least samples => s!"FFT needs at least {least} samples, got {samples}"
  | averages samples count =>
    s!"{samples} common samples cannot be split into {count} windows"
  | filterSpacing samples => s!"filtering needs at least two samples, got {samples}"

def FrequencyRole.label : FrequencyRole → String
  | cutoff => "cutoff frequency"
  | lowerEdge => "lower band edge"
  | notchCenter => "notch frequency"
  | notchWidth => "notch width"

section Message

open NumberText (text)

variable {α : Type} [NumberText α]

def BadParameter.message : BadParameter α → String
  | spacing dt => "sample spacing must be positive, got " ++ text dt
  | blockSize size least samples =>
    s!"window size {size} must be between {least} and the {samples} available samples"
  | noGain window size => window.label ++ s!" window of {size} samples has no coherent gain"
  | overlap share => "overlap must be in [0, 1), got " ++ text share
  | noAverages => "number of averages must be at least 1"
  | noCoefficients => "filter needs at least one numerator and one denominator coefficient"
  | frequency role hertz => role.label ++ " must be positive, got " ++ text hertz ++ " Hz"
  | orderZero => "filter order must be at least 1"
  | order most given => s!"filter order must be at most {most}, got {given}"
  | damping ratio => "damping ratio must be positive, got " ++ text ratio
  | bandWidth width => "band width must be positive, got " ++ text width ++ " Hz"
  | sampleRate rate => "sample rate must be positive, got " ++ text rate

variable [Zero α] [One α] [LT α] [DecidableLT α] [BEq α] [Elementary α]

/-- A polynomial in parentheses. -/
def enclosed (p : Poly α) : String := "(" ++ p.text ++ ")"

/-- The text of a quotient of polynomials. -/
def ratioText (numerator denominator : Poly α) : String :=
  enclosed numerator ++ "/" ++ enclosed denominator

def NotPolynomial.message : NotPolynomial α → String
  | dataset reference => "dataset reference '" ++ reference ++ "'"
  | divisor q => "division by " ++ enclosed q
  | quotient p c => enclosed p ++ "/" ++ text c
  | remainder p q => enclosed p ++ "%" ++ enclosed q
  | exponent q => "power of " ++ enclosed q
  | power p c => enclosed p ++ "^" ++ text c
  | powerDegree p c =>
    enclosed p ++ "^" ++ text c ++ " exceeds degree " ++ toString Poly.maxDegree
  | degree n => s!"degree {n} exceeds the maximum of " ++ toString Poly.maxDegree
  | argument function p => function ++ enclosed p
  | seriesFunction function c => function ++ "(" ++ text c ++ ")"

def Degeneracy.message : Degeneracy α → String
  | zeroDenominator => "denominator is zero"
  | numeratorOrder n d => "numerator order exceeds denominator order in " ++ ratioText n d
  | improper n d => ratioText n d ++ " is not proper"
  | leading c => "leading denominator coefficient is " ++ text c

/-- The sentence that is shown for an error. It stands on its own. -/
def Error.message : Error α → String
  | emptyExpression => "Expression is empty"
  | unbalancedParentheses => "Unbalanced parentheses"
  | unknownToken token position => s!"Unrecognized token '{token}' at position {position}"
  | unknownDataset name => s!"Unknown dataset '{name}'"
  | unknownFunction name => s!"Unknown function '{name}'"
  | missingOperator token position =>
    s!"Missing operator before '{token}' at position {position} " ++
      "(implicit multiplication is not supported)"
  | missingOperand operator => s!"Missing operand for '{operator}'"
  | missingArgument function =>
    s!"Function '{function}' must be followed by a parenthesized argument"
  | notSeries function => s!"Function '{function}' expects a series argument"
  | notPolynomial cause => "Not a polynomial in s: " ++ cause.message
  | lengthMismatch xs ys => s!"Series length mismatch: {xs} x-values and {ys} y-values"
  | insufficientData cause => "Not enough data: " ++ cause.message
  | invalidParameter cause => "Invalid parameter: " ++ cause.message
  | illPosedFit order required available =>
    s!"Ill-posed fit: order {order} needs at least {required} samples, got {available}"
  | orderOverflow order => s!"Order {order} has too many coefficients to count"
  | degenerate cause => "Degenerate transfer function: " ++ cause.message
  | singularMatrix order =>
    s!"Singular matrix: order {order} normal equations are not finite " ++
      "(NaN samples or x values too large)"

end Message

end SignalCalc
