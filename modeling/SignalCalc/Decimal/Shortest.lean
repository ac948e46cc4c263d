import SignalCalc.Decimal.Basic
import SignalCalc.Decimal.Binary64

/-!
# The shortest decimal of a double

The numbers that are read as a given double form an interval around it. Its shortest decimal is a
point of that interval on the coarsest decimal grid that has one, and of two such points the nearer.
-/

namespace SignalCalc.Decimal

/-- The interval of numbers read as one double, with the double itself, in units of `num / den`. The
ends belong to it if the significand is even, since a tie is read to the even neighbour. -/
structure Interval where
  low : Nat
  value : Nat
  high : Nat
  closed : Bool
  num : Nat
  den : Nat

/-- The interval of `significand * 2 ^ exponent`, in quarters of the last place. The gap below the
least normal significand is half as wide, except at the least exponent. -/
def Interval.of (significand : Nat) (exponent : Int) : Interval where
  low :=
    if significand = Binary64.hiddenBit ∧ Binary64.minExponent < exponent then 4 * significand - 1
    else 4 * significand - 2
  value := 4 * significand
  high := 4 * significand + 2
  closed := significand % 2 == 0
  num := powerPart 2 (exponent - 2)
  den := powerPart 2 (2 - exponent)

/-- The point of the interval on the grid of `10 ^ exponent`: the grid point below the value or the
one above it, the nearer if both are inside, and the upper one if they are equally near. -/
def Interval.onGrid (i : Interval) (exponent : Int) : Option Decimal :=
  let unit := i.den * powerPart 10 exponent
  let scale := i.num * powerPart 10 (-exponent)
  let below := i.value * scale / unit
  let above := below + 1
  let inside (d : Nat) : Bool :=
    if i.closed then i.low * scale ≤ d * unit && d * unit ≤ i.high * scale
    else i.low * scale < d * unit && d * unit < i.high * scale
  let aboveIsNearer := above * unit - i.value * scale ≤ i.value * scale - below * unit
  if inside above && (aboveIsNearer || !inside below) then some ⟨above, exponent⟩
  else if inside below then some ⟨below, exponent⟩
  else none

/-- The number `significand * 2 ^ exponent` itself, with all its digits. -/
def exact (significand : Nat) (exponent : Int) : Decimal :=
  if 0 ≤ exponent then ⟨significand * powerPart 2 exponent, 0⟩
  else ⟨significand * powerPart 5 (-exponent), exponent⟩

/-- The shortest decimal that is read as `significand * 2 ^ exponent`. Seventeen digits always
suffice. -/
def shortest (significand : Nat) (exponent : Int) : Decimal :=
  if significand = 0 then ⟨0, 0⟩
  else
    let i := Interval.of significand exponent
    let top := magnitude (i.value * i.num) i.den
    let found := (List.range 17).findSome? fun (n : Nat) => i.onGrid (top - 1 - n)
    (found.getD (exact significand exponent)).strip

end SignalCalc.Decimal
