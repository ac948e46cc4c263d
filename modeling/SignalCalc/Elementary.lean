/-!
# Elementary functions and powers

The library computes over any type of numbers. Field operations, order and equality tests come from
the core classes; `Elementary` adds the functions that those do not give. The running program uses
`Float`; an exact field is an equally good instance, which is what statements in exact arithmetic
are about.

Main definitions:

* `Elementary`: the elementary functions, with the instance for `Float`;
* `wordBound`: the bound of the natural numbers that are read and counted;
* `isFinite`: a number that is neither infinite nor undefined;
* `powInt`: integer powers by repeated squaring.
-/

namespace SignalCalc

/-- Numbers with the elementary functions and with roundings. -/
class Elementary (α : Type) where
  /-- The ratio of a circle's circumference to its diameter. -/
  pi : α
  /-- The magnitude of a number. -/
  abs : α → α
  /-- The greatest integer that is not above a number. -/
  floor : α → α
  /-- The least integer that is not below a number. -/
  ceil : α → α
  /-- The natural number nearest to a number, halves away from zero; zero for a negative or
  undefined one. -/
  roundToNat : α → Nat
  sqrt : α → α
  exp : α → α
  ln : α → α
  log10 : α → α
  sin : α → α
  cos : α → α
  tan : α → α
  asin : α → α
  acos : α → α
  atan : α → α
  /-- The angle of the point with the second coordinate first. -/
  atan2 : α → α → α
  /-- The length of the hypotenuse over two legs. -/
  hypot : α → α → α
  /-- A real power. -/
  pow : α → α → α

/-! ## Double precision -/

instance natCastFloat : NatCast Float := ⟨Float.ofNat⟩

/-- The greatest integer that is not above a double. Doubles from `2 ^ 52` on are integers; below that
the magnitude is cut to its whole part. -/
def floorFloat (x : Float) : Float :=
  if x.abs < 4503599627370496.0 then
    let whole := x.abs.toUInt64.toFloat
    if whole == x.abs then x
    else if x < 0.0 then -whole - 1.0
    else whole
  else x

/-- The natural number nearest to a double, halves away from zero; zero for a negative or undefined
one. -/
def roundToNatFloat (x : Float) : Nat :=
  let whole := x.toUInt64
  if x < 4503599627370496.0 && 0.5 ≤ x - whole.toFloat then whole.toNat + 1 else whole.toNat

/-- The hypotenuse over legs whose squares neither overflow nor vanish: the root of the sum of the
squares, and one Newton step that takes back what rounding the squares lost. -/
def hypotScaled (longer shorter : Float) : Float :=
  let h := Float.sqrt (longer * longer + shorter * shorter)
  if h ≤ 2.0 * shorter then
    let d := h - shorter
    h - (longer * (2.0 * d - longer) + (d - 2.0 * (longer - shorter)) * d) / (2.0 * h)
  else
    let d := h - longer
    h - (2.0 * d * (longer - 2.0 * shorter) + ((4.0 * d - shorter) * shorter + d * d)) / (2.0 * h)

/-- The hypotenuse in double precision. A leg below `2 ^ -54` of the other does not count, and legs
near the ends of the range are brought to its middle by a power of two, which is exact. -/
def hypotFloat (a b : Float) : Float :=
  let a := a.abs
  let b := b.abs
  if a.isInf || b.isInf then 1.0 / 0.0
  else if a.isNaN || b.isNaN then a + b
  else
    let longer := if a < b then b else a
    let shorter := if a < b then a else b
    let far := Float.scaleB 1.0 (-54)
    let scale := Float.scaleB 1.0 600
    if shorter ≤ longer * far then longer + shorter
    else if Float.scaleB 1.0 511 < longer then
      hypotScaled (longer / scale) (shorter / scale) * scale
    else if shorter < Float.scaleB 1.0 (-459) then
      hypotScaled (longer * scale) (shorter * scale) / scale
    else hypotScaled longer shorter

instance : Elementary Float where
  pi := 3.141592653589793
  abs := Float.abs
  floor := floorFloat
  ceil := Float.ceil
  roundToNat := roundToNatFloat
  sqrt := Float.sqrt
  exp := Float.exp
  ln := Float.log
  log10 := Float.log10
  sin := Float.sin
  cos := Float.cos
  tan := Float.tan
  asin := Float.asin
  acos := Float.acos
  atan := Float.atan
  atan2 := Float.atan2
  hypot := hypotFloat
  pow := Float.pow

/-! ## Finiteness, sums and integer powers -/

/-- Natural numbers that are read from texts or count something are below this bound, so they fit
into 64 bits. -/
def wordBound : Nat := Nat.pow 2 64

/-- A number is finite if it has no distance from itself: an infinite or undefined one does not. -/
def isFinite {α : Type} [Zero α] [Sub α] [BEq α] (x : α) : Bool :=
  x - x == 0

/-- The distance from one to the next double. -/
def roundingError {α : Type} [One α] [Div α] [NatCast α] : α := 1 / ((Nat.pow 2 52 : Nat) : α)

/-- The sum of a list from left to right. It starts from the negative zero, which is neutral for
negative zeros too. -/
def total {α : Type} [Zero α] [Neg α] [Add α] (xs : List α) : α :=
  xs.foldl (· + ·) (-0)

section Powers

variable {α : Type} [Mul α]

/-- The product `r * x ^ m` by repeated squaring: the factors enter by the bits of `m`, the lowest
first. -/
def powNatFrom (r x : α) (m : Nat) : α :=
  let r := if m % 2 = 1 then r * x else r
  if h : m / 2 = 0 then r else powNatFrom r (x * x) (m / 2)
termination_by m
decreasing_by omega

/-- The integer power of a number; for a negative exponent it is the reciprocal of the power. -/
def powInt [One α] [Div α] (x : α) (n : Int) : α :=
  let r := powNatFrom 1 x n.natAbs
  if n < 0 then 1 / r else r

end Powers

end SignalCalc
