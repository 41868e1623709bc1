/-!
# Doubles

A double is a word of 64 bits. The highest bit is the sign; the others are the magnitude, and they
grow with it: first the finite magnitudes from zero on, then the infinite one, and last those that
stand for no number. A finite magnitude is `significand · 2 ^ exponent`, where the upper eleven of
its bits give the exponent and the lower fifty-two the significand, whose leading one is left out
unless the number is too small to have one.

## Main definitions

* `Double`: a double by its bits, so that equality is equality bit for bit.
* `Double.neg`, `Double.abs`: the other sign and no sign.
* `Double.order?`, `Double.equal`: comparison of the numbers.
* `Exact`, `Double.exact?`: sign, significand and binary exponent of a finite double.
-/

namespace Covenant

/-- A number in the binary format of 64 bits. -/
structure Double where
  /-- The sign bit and the bits of the magnitude. -/
  bits : UInt64
deriving Repr, DecidableEq

namespace Double

/-- The bits of the infinite magnitude; those of the finite ones are below. -/
def infinityBits : Nat := 2047 * Nat.pow 2 52

/-- The double with a sign and the bits of a magnitude. -/
def ofParts (negative : Bool) (magnitude : Nat) : Double :=
  ⟨((if negative then Nat.pow 2 63 else 0) + magnitude).toUInt64⟩

/-- Whether the sign bit is set; zeros and undefined numbers have one too. -/
def negative (x : Double) : Bool :=
  decide (Nat.pow 2 63 ≤ x.bits.toNat)

/-- The bits without the sign. -/
def magnitudeBits (x : Double) : Nat :=
  x.bits.toNat % Nat.pow 2 63

/-- The zero with a sign. -/
def zero (negative : Bool) : Double :=
  ofParts negative 0

/-- The infinite number with a sign. -/
def infinity (negative : Bool) : Double :=
  ofParts negative infinityBits

/-- The undefined number with a sign. -/
def undefined (negative : Bool) : Double :=
  ofParts negative (infinityBits + Nat.pow 2 51)

/-- Whether a double is neither infinite nor undefined. -/
def isFinite (x : Double) : Bool :=
  decide (x.magnitudeBits < infinityBits)

/-- Whether a double stands for no number. -/
def isUndefined (x : Double) : Bool :=
  decide (infinityBits < x.magnitudeBits)

/-- Whether a double is a zero of either sign. -/
def isZero (x : Double) : Bool :=
  x.magnitudeBits == 0

/-- The double with the other sign. -/
def neg (x : Double) : Double :=
  ofParts (!x.negative) x.magnitudeBits

/-- The double without its sign. -/
def abs (x : Double) : Double :=
  ofParts false x.magnitudeBits

/-- The place among all doubles by size; both zeros have the same. -/
def rank (x : Double) : Int :=
  if x.negative then -(x.magnitudeBits : Int) else x.magnitudeBits

/-- The order of two doubles; there is none if either is undefined. -/
def order? (a b : Double) : Option Ordering :=
  if a.isUndefined || b.isUndefined then none else some (compare a.rank b.rank)

/-- Whether two doubles are the same number: both zeros are, and an undefined one is not even equal
to itself. -/
def equal (a b : Double) : Bool :=
  a.order? b == some .eq

end Double

/-- A finite number as `± significand · 2 ^ exponent`. -/
structure Exact where
  /-- Whether the sign is minus; a zero has a sign too. -/
  negative : Bool
  /-- The significand, below `2 ^ 53` for every double. -/
  significand : Nat
  /-- The exponent of two. -/
  exponent : Int
deriving Repr, DecidableEq

/-- Takes a finite double apart; the others have no such form. -/
def Double.exact? (x : Double) : Option Exact :=
  let field : Nat := x.magnitudeBits / Nat.pow 2 52
  let fraction : Nat := x.magnitudeBits % Nat.pow 2 52
  if !x.isFinite then none
  else if field = 0 then some ⟨x.negative, fraction, -1074⟩
  else some ⟨x.negative, fraction + Nat.pow 2 52, (field : Int) - 1075⟩

namespace Exact

/-- The magnitude as a fraction: numerator and denominator. -/
def ratio (x : Exact) : Nat × Nat :=
  if 0 ≤ x.exponent then (x.significand * Nat.pow 2 x.exponent.toNat, 1)
  else (x.significand, Nat.pow 2 (-x.exponent).toNat)

/-- The number in units of `2 ^ exponent`, for an exponent that is not above its own. -/
def scaled (x : Exact) (exponent : Int) : Int :=
  let magnitude : Int := (x.significand * Nat.pow 2 (x.exponent - exponent).toNat : Nat)
  if x.negative then -magnitude else magnitude

/-- The integral part, cut toward zero. -/
def truncate (x : Exact) : Int :=
  let (numerator, denominator) := x.ratio
  let magnitude : Int := (numerator / denominator : Nat)
  if x.negative then -magnitude else magnitude

end Exact

end Covenant
