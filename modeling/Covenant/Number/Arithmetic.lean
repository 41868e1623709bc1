import Covenant.Number.Rounding

/-!
# Arithmetic on doubles

Each operation is carried out exactly and rounded once. An undefined operand is the result, the
first before the second; an operation on numbers that has no result gives the undefined number with
a minus sign.

## Main definitions

* `Double.add`, `Double.sub`, `Double.mul`, `Double.div`.
* `Double.remainder`: the remainder of division cut toward zero, which is always exact.
* `Double.roundHalfAway`: the nearest integer, a half going away from zero.
-/

namespace Covenant

namespace Exact

/-- The sum, rounded. A sum of zero is negative only if both operands are. -/
def add (x y : Exact) : Double :=
  let exponent := min x.exponent y.exponent
  let sum := x.scaled exponent + y.scaled exponent
  if sum = 0 then Double.zero (x.negative && y.negative)
  else Exact.toDouble ⟨decide (sum < 0), sum.natAbs, exponent⟩

/-- The product, rounded. -/
def mul (x y : Exact) : Double :=
  Exact.toDouble ⟨x.negative != y.negative, x.significand * y.significand, x.exponent + y.exponent⟩

/-- The quotient by a divisor other than zero, rounded. -/
def div (x y : Exact) : Double :=
  let (top, bottom) := Number.dividePower x.significand y.significand (y.exponent - x.exponent)
  Double.ofRatio (x.negative != y.negative) top bottom

/-- The remainder by a divisor other than zero; it has the sign of the dividend. -/
def remainder (x y : Exact) : Double :=
  let exponent := min x.exponent y.exponent
  let rest := (x.scaled exponent).natAbs % (y.scaled exponent).natAbs
  Exact.toDouble ⟨x.negative, rest, exponent⟩

end Exact

namespace Double

/-- The result of an operation that has none. -/
def noResult : Double :=
  undefined true

/-- An operation on numbers, where an undefined operand is the result. -/
def onNumbers (f : Double → Double → Double) (a b : Double) : Double :=
  if a.isUndefined then a
  else if b.isUndefined then b
  else f a b

/-- The sum of two numbers; infinite ones of different signs have none. -/
def sum (a b : Double) : Double :=
  match a.exact?, b.exact? with
  | some x, some y => x.add y
  | some _, none => b
  | none, some _ => a
  | none, none => if a.negative = b.negative then a else noResult

/-- The product of two numbers; a zero and an infinite one have none. -/
def product (a b : Double) : Double :=
  match a.exact?, b.exact? with
  | some x, some y => x.mul y
  | _, _ =>
    if a.isZero || b.isZero then noResult
    else infinity (a.negative != b.negative)

/-- The quotient of two numbers; two zeros and two infinite ones have none. -/
def quotient (a b : Double) : Double :=
  match a.exact?, b.exact? with
  | some x, some y =>
    if !b.isZero then x.div y
    else if a.isZero then noResult
    else infinity (a.negative != b.negative)
  | some _, none => zero (a.negative != b.negative)
  | none, some _ => infinity (a.negative != b.negative)
  | none, none => noResult

/-- The remainder of two numbers: none for an infinite dividend or a zero divisor, and the dividend
itself for an infinite divisor. -/
def rest (a b : Double) : Double :=
  match a.exact?, b.exact? with
  | some x, some y => if b.isZero then noResult else x.remainder y
  | some _, none => a
  | none, _ => noResult

/-- The sum of two doubles. -/
def add : Double → Double → Double :=
  onNumbers sum

/-- The difference of two doubles. -/
def sub : Double → Double → Double :=
  onNumbers fun a b => sum a b.neg

/-- The product of two doubles. -/
def mul : Double → Double → Double :=
  onNumbers product

/-- The quotient of two doubles. -/
def div : Double → Double → Double :=
  onNumbers quotient

/-- The remainder of two doubles, with the quotient cut toward zero. -/
def remainder : Double → Double → Double :=
  onNumbers rest

/-- The nearest integer as a double, a half going away from zero; the sign of zero is kept. -/
def roundHalfAway (x : Double) : Double :=
  match x.exact? with
  | none => x
  | some e =>
    let (numerator, denominator) := e.ratio
    ofRatio e.negative ((2 * numerator + denominator) / (2 * denominator)) 1

end Double

end Covenant
