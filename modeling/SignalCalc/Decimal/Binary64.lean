/-!
# What a double denotes

A double is undefined, infinite, or a sign with a magnitude `significand * 2 ^ exponent` over the
natural numbers and the integers. All decimal work starts from this form, so that it is exact.
-/

namespace SignalCalc

/-- The value of a double, taken apart. -/
inductive Binary64 where
  | undefined
  | infinite (negative : Bool)
  | finite (negative : Bool) (significand : Nat) (exponent : Int)
deriving DecidableEq, Repr

namespace Binary64

/-- The least exponent, that of the subnormal numbers. -/
def minExponent : Int := -1074

/-- The least significand of a normal number. -/
def hiddenBit : Nat := Nat.pow 2 52

/-- The biased exponent of what is not finite. -/
def topExponent : Nat := 2047

/-- Reads sign, biased exponent and fraction off the 64 bits. -/
def ofBits (bits : Nat) : Binary64 :=
  let negative := bits.testBit 63
  let biased : Nat := bits / hiddenBit % (topExponent + 1)
  let fraction : Nat := bits % hiddenBit
  if biased = topExponent then
    if fraction = 0 then .infinite negative else .undefined
  else if biased = 0 then .finite negative fraction minExponent
  else .finite negative (hiddenBit + fraction) (minExponent + ((biased : Int) - 1))

/-- The value of a double. -/
def ofFloat (x : Float) : Binary64 := ofBits x.toBits.toNat

end Binary64

end SignalCalc
