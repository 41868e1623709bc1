import Covenant.Number.Decimal

/-!
# Reading numbers from text

The texts that conversions accept as integers and as numbers. Both take an optional sign. A number
has digits with an optional point among or around them and an optional exponent, or is one of the
words for infinity and for the undefined number, in either case of letters.

An exponent counts up to its first digits that make `65536` or more; the digits behind them are
passed over. No double is that large or small, but a number with as many digits as its exponent
says shows it.

## Main definitions

* `readInteger?`: a signed decimal integer of 64 bits.
* `exponentMagnitude`: what the digits of an exponent write.
* `readDouble?`: a signed decimal or named number, rounded to the nearest double.
-/

namespace Covenant.Number

/-- The integer with this value, if it fits in 64 bits. -/
def integer? (n : Int) : Option Int64 :=
  if Int64.minValue.toInt ≤ n ∧ n ≤ Int64.maxValue.toInt then some (Int64.ofInt n) else none

/-- Splits off a sign; without one the number is not negative. -/
def splitSign : List Char → Bool × List Char
  | '-' :: rest => (true, rest)
  | '+' :: rest => (false, rest)
  | rest => (false, rest)

/-- The longest run of ASCII digits in front, and what follows it. -/
def spanDigits (cs : List Char) : List Char × List Char :=
  cs.span Text.isDigit

/-- A signed decimal integer that fits in 64 bits. -/
def readInteger? (text : String) : Option Int64 :=
  let (negative, digits) := splitSign text.toList
  if digits.isEmpty || !digits.all Text.isDigit then none
  else
    let magnitude : Int := ofDigits digits
    integer? (if negative then -magnitude else magnitude)

/-- The magnitude that the digits of an exponent write. -/
def exponentMagnitude (digits : List Char) : Nat :=
  digits.foldl (fun n c => if n < 65536 then 10 * n + Text.digitValue c else n) 0

/-- The exponent that digits write, with its sign. -/
def exponentOf (negative : Bool) (digits : List Char) : Int :=
  if negative then -(exponentMagnitude digits : Int) else exponentMagnitude digits

/-- The exponent part of a number: empty, or a mark with an optional sign and digits. -/
def readExponent? : List Char → Option Int
  | [] => some 0
  | mark :: rest =>
    let (negative, digits) := splitSign rest
    if (mark != 'e' && mark != 'E') || digits.isEmpty || !digits.all Text.isDigit then none
    else some (exponentOf negative digits)

/-- An unsigned number in digits: a whole part, a fraction and an exponent, each optional, with a
digit in one of the first two. -/
def readDecimal? (cs : List Char) : Option Decimal :=
  let (whole, rest) := spanDigits cs
  let (fraction, rest) :=
    match rest with
    | '.' :: tail => spanDigits tail
    | _ => ([], rest)
  if whole.isEmpty && fraction.isEmpty then none
  else
    (readExponent? rest).map fun exponent =>
      ⟨ofDigits (whole ++ fraction), exponent - fraction.length⟩

/-- An unsigned number: a decimal or a word. -/
def readMagnitude? (cs : List Char) : Option Double :=
  match String.ofList (cs.map Char.toLower) with
  | "inf" | "infinity" => some (Double.infinity false)
  | "nan" => some (Double.undefined false)
  | _ => (readDecimal? cs).map Decimal.toDouble

/-- A number with an optional sign. -/
def readDouble? (text : String) : Option Double :=
  let (negative, rest) := splitSign text.toList
  (readMagnitude? rest).map fun x => if negative then x.neg else x

end Covenant.Number
