import SignalCalc.Config.Json
import SignalCalc.Elementary
import SignalCalc.Filter.Design
import SignalCalc.Fit.Polynomial
import SignalCalc.Spectrum.Amplitude

/-!
# Settings as JSON values

Every record is written as an object of its fields. It is read from such an object, in which members
of other names do not count and no field may come twice, or from the array of its fields in order.
A choice is written as its name; it may also be read from an object with the name as its one key and
`null` as the value.
-/

namespace SignalCalc

namespace Json

variable {α : Type}

/-! ## Plain values -/

def bool? : Json α → Option Bool
  | .bool b => some b
  | _ => none

def string? : Json α → Option String
  | .string s => some s
  | _ => none

def natural? : Json α → Option Nat
  | .natural n => some n
  | _ => none

/-- A number, which must be finite. -/
def real? [Zero α] [Sub α] [NatCast α] [BEq α] : Json α → Option α
  | .natural n => some n
  | .real x => if isFinite x then some x else none
  | _ => none

/-- The values of an array. -/
def list? {β : Type} (read : Json α → Option β) : Json α → Option (List β)
  | .array items => items.mapM read
  | _ => none

/-- A value, or none for `null`. -/
def optional? {β : Type} (read : Json α → Option β) : Json α → Option (Option β)
  | .null => some none
  | j => (read j).map some

/-- The name of a choice. -/
def choice? : Json α → Option String
  | .string name => some name
  | .object [(some name, .null)] => some name
  | _ => none

/-! ## Records -/

/-- The value of the field with a name, if it is there; none if it is there twice. -/
def uniqueMember? (members : List (Option String × Json α)) (name : String) :
    Option (Option (Json α)) :=
  match members.filter (·.1 == some name) with
  | [] => some none
  | [(_, value)] => some (some value)
  | _ => none

/-- The fields of a record in the given order, each of them if it is there. A short array leaves out
the last ones. -/
def fields? (names : List String) : Json α → Option (List (Option (Json α)))
  | .object members =>
    if members.all (·.1.isSome) then names.mapM (uniqueMember? members) else none
  | .array items =>
    if items.length ≤ names.length then
      some (items.map some ++ List.replicate (names.length - items.length) none)
    else none
  | _ => none

/-- An object of the fields of a record. -/
def record (members : List (String × Json α)) : Json α :=
  .object (members.map fun (name, value) => (some name, value))

/-- A field that may be left out. -/
def fieldOr {β : Type} (read : Json α → Option β) (otherwise : β) : Option (Json α) → Option β
  | none => some otherwise
  | some j => read j

end Json

variable {α : Type} [Zero α] [One α] [Sub α] [NatCast α] [OfScientific α] [BEq α]

/-! ## Choices -/

def Window.toJson (w : Window) : Json α := .string w.name

def Window.ofJson? (j : Json α) : Option Window := j.choice? >>= Window.ofName?

def FilterKind.toJson (k : FilterKind) : Json α := .string k.name

def FilterKind.ofJson? (j : Json α) : Option FilterKind := j.choice? >>= FilterKind.ofName?

/-! ## Filter settings -/

namespace FilterSettings

/-- The names of the fields, in order. -/
def fieldNames : List String :=
  ["type", "order", "cutoff_frequency", "damping_ratio", "width", "phaseless", "butterworth",
    "numerator", "denominator"]

def toJson (s : FilterSettings α) : Json α :=
  .record (fieldNames.zip
    [s.kind.toJson, .natural s.order, .real s.cutoff, .real s.damping, .real s.width,
      .bool s.phaseless, .bool s.butterworth, .string s.numerator, .string s.denominator])

/-- The settings with the given fields; those left out have their default. -/
def ofFields? : List (Option (Json α)) → Option (FilterSettings α)
  | [kind, order, cutoff, damping, width, phaseless, butterworth, numerator, denominator] => do
    let d : FilterSettings α := default
    return {
      kind := ← Json.fieldOr FilterKind.ofJson? d.kind kind
      order := ← Json.fieldOr Json.natural? d.order order
      cutoff := ← Json.fieldOr Json.real? d.cutoff cutoff
      damping := ← Json.fieldOr Json.real? d.damping damping
      width := ← Json.fieldOr Json.real? d.width width
      phaseless := ← Json.fieldOr Json.bool? d.phaseless phaseless
      butterworth := ← Json.fieldOr Json.bool? d.butterworth butterworth
      numerator := ← Json.fieldOr Json.string? d.numerator numerator
      denominator := ← Json.fieldOr Json.string? d.denominator denominator }
  | _ => none

/-- Settings from an object or an array in which any field may be left out. -/
def ofJson? (j : Json α) : Option (FilterSettings α) := j.fields? fieldNames >>= ofFields?

end FilterSettings

/-! ## Options of a spectrum -/

namespace SpectrumOptions

/-- The names of the fields, in order. -/
def fieldNames : List String := ["window", "window_size", "overlap", "subtract_mean"]

def toJson (o : SpectrumOptions α) : Json α :=
  .record (fieldNames.zip
    [o.window.toJson, o.blockSize?.elim .null .natural, .real o.overlap, .bool o.subtractMean])

/-- The options with the given fields. Only the size of the blocks may be left out. -/
def ofFields? : List (Option (Json α)) → Option (SpectrumOptions α)
  | [some window, blockSize, some overlap, some subtractMean] => do
    return {
      window := ← Window.ofJson? window
      blockSize? := ← Json.fieldOr (Json.optional? Json.natural?) none blockSize
      overlap := ← overlap.real?
      subtractMean := ← subtractMean.bool? }
  | _ => none

def ofJson? (j : Json α) : Option (SpectrumOptions α) := j.fields? fieldNames >>= ofFields?

end SpectrumOptions

/-! ## Fits -/

namespace PolynomialFit

/-- The names of the fields, in order. -/
def fieldNames : List String := ["order", "coefficients", "r_squared"]

def toJson (f : PolynomialFit α) : Json α :=
  .record (fieldNames.zip
    [.natural f.order, .array (f.coefficients.map .real), .real f.rSquared])

/-- The fit with the given fields, all of which are needed. -/
def ofFields? : List (Option (Json α)) → Option (PolynomialFit α)
  | [some order, some coefficients, some rSquared] => do
    return {
      order := ← order.natural?
      coefficients := ← Json.list? Json.real? coefficients
      rSquared := ← rSquared.real? }
  | _ => none

def ofJson? (j : Json α) : Option (PolynomialFit α) := j.fields? fieldNames >>= ofFields?

end PolynomialFit

end SignalCalc
