import Covenant.Number.Double

/-!
# Rounding to doubles

The double nearest to a fraction. The finite doubles around a positive number are the multiples of
one power of two; the number is divided by that power, rounded to an integer, and the integer is
placed among the bits. Of two equally near doubles the one with an even significand is taken, and a
magnitude that rounds beyond all finite ones is infinite.

## Main definitions

* `Number.roundQuotient`: the integer nearest to a quotient.
* `Number.gridExponent`: the power of two whose multiples are the doubles around a number.
* `Double.ofRatio`, `Exact.toDouble`, `Double.ofInteger`: the nearest double.
-/

namespace Covenant

namespace Number

/-- The integer nearest to a quotient; a half goes to the even neighbour. -/
def roundQuotient (numerator denominator : Nat) : Nat :=
  let quotient := numerator / denominator
  let rest := numerator % denominator
  if 2 * rest < denominator || (2 * rest == denominator && quotient % 2 == 0) then quotient
  else quotient + 1

/-- Numerator and denominator of a fraction divided by a power of two. -/
def dividePower (numerator denominator : Nat) (exponent : Int) : Nat × Nat :=
  if 0 ≤ exponent then (numerator, denominator * Nat.pow 2 exponent.toNat)
  else (numerator * Nat.pow 2 (-exponent).toNat, denominator)

/-- The exponent of the greatest power of two that is not above a positive fraction. -/
def binaryScale (numerator denominator : Nat) : Int :=
  let guess := (numerator.log2 : Int) - denominator.log2
  let (top, bottom) := dividePower numerator denominator guess
  if top < bottom then guess - 1 else guess

/-- The exponent of the power of two whose multiples are the doubles around a positive fraction:
fifty-two below that of the fraction, and never below that of the least double. -/
def gridExponent (numerator denominator : Nat) : Int :=
  max (binaryScale numerator denominator - 52) (-1074)

/-- The bits of the magnitude nearest to a fraction. The rounded significand is added to the place
of its exponent as it is: its leading one raises the exponent field by one. -/
def roundedBits (numerator denominator : Nat) : Nat :=
  if numerator = 0 then 0
  else
    let exponent := gridExponent numerator denominator
    let (top, bottom) := dividePower numerator denominator exponent
    min Double.infinityBits ((exponent + 1074).toNat * Nat.pow 2 52 + roundQuotient top bottom)

end Number

/-- The double nearest to a fraction, with a sign. -/
def Double.ofRatio (negative : Bool) (numerator denominator : Nat) : Double :=
  ofParts negative (Number.roundedBits numerator denominator)

/-- The double nearest to an exact number. -/
def Exact.toDouble (x : Exact) : Double :=
  let (numerator, denominator) := x.ratio
  Double.ofRatio x.negative numerator denominator

/-- The double nearest to an integer. -/
def Double.ofInteger (n : Int) : Double :=
  ofRatio (decide (n < 0)) n.natAbs 1

end Covenant
