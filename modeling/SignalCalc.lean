import SignalCalc.Config.Codec
import SignalCalc.Config.Json
import SignalCalc.Config.Reader
import SignalCalc.Cplx
import SignalCalc.Decimal.Basic
import SignalCalc.Decimal.Binary64
import SignalCalc.Decimal.Literal
import SignalCalc.Decimal.Rounded
import SignalCalc.Decimal.Shortest
import SignalCalc.Decimal.Text
import SignalCalc.Elementary
import SignalCalc.Error
import SignalCalc.Expression.Builtin
import SignalCalc.Expression.Grammar
import SignalCalc.Expression.Interpretation
import SignalCalc.Expression.Numeric
import SignalCalc.Expression.Operator
import SignalCalc.Expression.Postfix
import SignalCalc.Expression.Scalar
import SignalCalc.Expression.Scan
import SignalCalc.Expression.Solve
import SignalCalc.Expression.Symbolic
import SignalCalc.Expression.Token
import SignalCalc.Expression.Tree
import SignalCalc.Filter.Apply
import SignalCalc.Filter.Bilinear
import SignalCalc.Filter.Design
import SignalCalc.Filter.Digital
import SignalCalc.Filter.History
import SignalCalc.Filter.TransferFunction
import SignalCalc.Fit.Polynomial
import SignalCalc.Fit.PseudoInverse
import SignalCalc.Poly.Basic
import SignalCalc.Poly.Text
import SignalCalc.Proofs.Config.Persistence
import SignalCalc.Proofs.Cplx
import SignalCalc.Proofs.Decimal.Literal
import SignalCalc.Proofs.Decimal.Text
import SignalCalc.Proofs.Double.Arithmetic
import SignalCalc.Proofs.Double.Packing
import SignalCalc.Proofs.Double.Sign
import SignalCalc.Proofs.Double.Value
import SignalCalc.Proofs.Double.Whole
import SignalCalc.Proofs.Exact
import SignalCalc.Proofs.Expression.Acceptance
import SignalCalc.Proofs.Expression.Arrangement
import SignalCalc.Proofs.Expression.Columns
import SignalCalc.Proofs.Expression.Degree
import SignalCalc.Proofs.Expression.Draft
import SignalCalc.Proofs.Expression.Evaluation
import SignalCalc.Proofs.Expression.Factor
import SignalCalc.Proofs.Expression.Layout
import SignalCalc.Proofs.Expression.Pointwise
import SignalCalc.Proofs.Expression.Postfix
import SignalCalc.Proofs.Expression.Reading
import SignalCalc.Proofs.Expression.Respelling
import SignalCalc.Proofs.Expression.Scanning
import SignalCalc.Proofs.Expression.Substitution
import SignalCalc.Proofs.Expression.Symbolic
import SignalCalc.Proofs.Expression.Typing
import SignalCalc.Proofs.Filter.Bilinear
import SignalCalc.Proofs.Filter.Butterworth
import SignalCalc.Proofs.Filter.Cascade
import SignalCalc.Proofs.Filter.Columns
import SignalCalc.Proofs.Filter.Construction
import SignalCalc.Proofs.Filter.Design
import SignalCalc.Proofs.Filter.History
import SignalCalc.Proofs.Filter.MaximallyFlat
import SignalCalc.Proofs.Filter.Prototype
import SignalCalc.Proofs.Filter.Recurrence
import SignalCalc.Proofs.Filter.Refusal
import SignalCalc.Proofs.Filter.Ring
import SignalCalc.Proofs.Filter.Stability
import SignalCalc.Proofs.Filter.Stable
import SignalCalc.Proofs.Filter.SteadyState
import SignalCalc.Proofs.Filter.Superposition
import SignalCalc.Proofs.Fit.LeastSquares
import SignalCalc.Proofs.Fit.Refusal
import SignalCalc.Proofs.Outcome
import SignalCalc.Proofs.Poly.Complex
import SignalCalc.Proofs.Poly.Degree
import SignalCalc.Proofs.Poly.Laws
import SignalCalc.Proofs.Poly.Ring
import SignalCalc.Proofs.Poly.Roots
import SignalCalc.Proofs.Poly.Spelling
import SignalCalc.Proofs.Poly.Term
import SignalCalc.Proofs.Poly.TermText
import SignalCalc.Proofs.Poly.Text
import SignalCalc.Proofs.Series.Alignment
import SignalCalc.Proofs.Series.Calculus
import SignalCalc.Proofs.Series.Causality
import SignalCalc.Proofs.Series.Columns
import SignalCalc.Proofs.Series.Lookup
import SignalCalc.Proofs.Series.Positions
import SignalCalc.Proofs.Series.RoundTrip
import SignalCalc.Proofs.Series.Stores
import SignalCalc.Proofs.Series.Symmetry
import SignalCalc.Proofs.Spectrum.Blocks
import SignalCalc.Proofs.Spectrum.Coherence
import SignalCalc.Proofs.Spectrum.Columns
import SignalCalc.Proofs.Spectrum.Exchange
import SignalCalc.Proofs.Spectrum.Fourier
import SignalCalc.Proofs.Spectrum.Gain
import SignalCalc.Proofs.Spectrum.Offset
import SignalCalc.Proofs.Spectrum.Partition
import SignalCalc.Proofs.Spectrum.Scaling
import SignalCalc.Proofs.Spectrum.Sinusoid
import SignalCalc.Proofs.Spectrum.Unwrapping
import SignalCalc.Series.Align
import SignalCalc.Series.Basic
import SignalCalc.Series.Calculus
import SignalCalc.Series.Columns
import SignalCalc.Series.Lookup
import SignalCalc.Spectrum.Amplitude
import SignalCalc.Spectrum.Bins
import SignalCalc.Spectrum.Fourier
import SignalCalc.Spectrum.Response
import SignalCalc.Spectrum.Window
import SignalCalc.Text.Blank
import SignalCalc.Text.LetterCase
import SignalCalc.Text.Lowercase
