/-!
# Decimal numbers

A `Decimal` is a coefficient with a power of ten. This module holds the arithmetic by which a
fraction of natural numbers is placed on a decimal grid, and the positional text of a decimal.

Main definitions:

* `Decimal.powerPart`: integer powers as fractions of natural numbers;
* `Decimal.magnitude`: the least power of ten above a fraction;
* `Decimal.roundDiv`: the nearest integer to a fraction, halves to even;
* `Decimal.positional`: the text of a decimal without an exponent.
-/

namespace SignalCalc

/-- The number `coefficient * 10 ^ exponent`. -/
@[ext] structure Decimal where
  coefficient : Nat
  exponent : Int
deriving DecidableEq, Repr

namespace Decimal

/-- The numerator of a power with an integer exponent. The denominator is the numerator for the
opposite exponent. -/
def powerPart (base : Nat) (exponent : Int) : Nat := base.pow exponent.toNat

/-- The number of decimal digits of a natural number. -/
def digitCount (n : Nat) : Nat := (Nat.toDigits 10 n).length

/-- For a positive fraction `num / den`, the `k` with `10 ^ (k - 1) ≤ num / den < 10 ^ k`. Scaling
the shorter of the two numbers to the length of the other leaves only `k` and `k + 1` open. -/
def magnitude (num den : Nat) : Int :=
  let shift : Int := digitCount den - digitCount num
  if den * powerPart 10 (-shift) ≤ num * powerPart 10 shift then 1 - shift else -shift

/-- The integer nearest to `num / den`; a half goes to the even neighbour. -/
def roundDiv (num den : Nat) : Nat :=
  let below := num / den
  let rest := num % den
  if 2 * rest < den then below
  else if den < 2 * rest then below + 1
  else if below % 2 = 0 then below else below + 1

/-- The decimal with the given exponent that is nearest to `num / den`. -/
def nearest (num den : Nat) (exponent : Int) : Decimal :=
  ⟨roundDiv (num * powerPart 10 (-exponent)) (den * powerPart 10 exponent), exponent⟩

/-- The same number with no zero at the end of its coefficient. -/
def strip (d : Decimal) : Decimal :=
  if h : d.coefficient % 10 = 0 ∧ 0 < d.coefficient then
    strip ⟨d.coefficient / 10, d.exponent + 1⟩
  else d
termination_by d.coefficient
decreasing_by exact Nat.div_lt_self h.2 (by decide)

/-- The text of a decimal with all its digits in place: zeros fill the gap to the point on either
side, and there is a point only where digits follow it. -/
def positional (d : Decimal) : String :=
  let digits := Nat.toDigits 10 d.coefficient
  if 0 ≤ d.exponent then
    String.ofList (digits ++ List.replicate (if d.coefficient = 0 then 0 else d.exponent.toNat) '0')
  else
    let places := (-d.exponent).toNat
    let padded := List.replicate (places + 1 - digits.length) '0' ++ digits
    let whole := padded.length - places
    String.ofList (padded.take whole ++ '.' :: padded.drop whole)

end Decimal

end SignalCalc
