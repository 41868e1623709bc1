import Covenant.Number.Rounding
import Covenant.Text.CharClass

/-!
# Decimals and doubles

Decimals `coefficient · 10 ^ exponent`, the double nearest to each, the shortest decimal that
reads back to a given double, and the three layouts in which doubles are written.

## Main definitions

* `ofDigits`: the number that digits write.
* `Decimal.toDouble`: the nearest double, infinite on overflow.
* `shortest`: the fewest digits that read back to the same double, and of those the nearest.
* `Layout` and `Layout.write`: where positional notation ends and how an exponent is spelt.
* `Layout.literal`, `Layout.plain`, `Layout.data`: the form of script literals, of messages and
  of JSON texts.
-/

namespace Covenant.Number

/-- The number of decimal digits; zero has one. -/
def digitCount (n : Nat) : Nat :=
  (Nat.toDigits 10 n).length

/-- The characters of an integer in decimal, with a minus sign if it is negative. -/
def integerChars (n : Int) : List Char :=
  (if n < 0 then ['-'] else []) ++ Nat.toDigits 10 n.natAbs

/-- The text of an integer in decimal. -/
def integerText (n : Int) : String :=
  String.ofList (integerChars n)

/-- The number that the digits read so far and those still to come write. The latest digits are
gathered in `block`, which stands behind `high` times `scale`; a block of a hundred digits is added
to the rest, so that long texts are read without going over all of the number for each digit. -/
def ofBlocks (high block scale : Nat) : List Char → Nat
  | [] => high * scale + block
  | c :: rest =>
    if scale = Nat.pow 10 100 then ofBlocks (high * scale + block) (Text.digitValue c) 10 rest
    else ofBlocks high (10 * block + Text.digitValue c) (10 * scale) rest

/-- The number that a list of ASCII digits writes. -/
def ofDigits (digits : List Char) : Nat :=
  ofBlocks 0 0 1 digits

theorem ofBlocks_eq_foldl (high block scale : Nat) (digits : List Char) :
    ofBlocks high block scale digits =
      digits.foldl (fun n c => 10 * n + Text.digitValue c) (high * scale + block) := by
  induction digits generalizing high block scale with
  | nil => rfl
  | cons c rest ih =>
    rw [ofBlocks, List.foldl_cons]
    split
    · rw [ih, Nat.mul_comm 10]
    · rw [ih]
      congr 1
      rw [Nat.mul_add, Nat.mul_left_comm, Nat.add_assoc]

/-- Digits are read from the left, each making the number before it ten times as large. -/
theorem ofDigits_eq_foldl (digits : List Char) :
    ofDigits digits = digits.foldl (fun n c => 10 * n + Text.digitValue c) 0 := by
  rw [ofDigits, ofBlocks_eq_foldl]

/-- A decimal without sign: `coefficient · 10 ^ exponent`. -/
structure Decimal where
  /-- The digits, read as one number. -/
  coefficient : Nat
  /-- The exponent of ten. -/
  exponent : Int
deriving Repr, DecidableEq

namespace Decimal

/-- Whether a decimal other than zero is below `10⁻³³⁰`, as can be told from the length of its
coefficient: `8 ^ k` is below `10 ^ k`. -/
def isNegligible (d : Decimal) : Bool :=
  decide ((d.coefficient.log2 : Int) + 1 ≤ 3 * (-330 - d.exponent))

/-- The double nearest to a decimal. Magnitudes beyond every double are infinite and those below
half the least one are zero; where the exponent shows that, no power of ten is computed. -/
def toDouble (d : Decimal) : Double :=
  if d.coefficient = 0 || d.isNegligible then Double.zero false
  else if 310 < d.exponent then Double.infinity false
  else if 0 ≤ d.exponent then Double.ofRatio false (d.coefficient * Nat.pow 10 d.exponent.toNat) 1
  else Double.ofRatio false d.coefficient (Nat.pow 10 (-d.exponent).toNat)

end Decimal

/-- Numerator and denominator of a fraction divided by a power of ten. -/
def divideTens (numerator denominator : Nat) (exponent : Int) : Nat × Nat :=
  if 0 ≤ exponent then (numerator, denominator * Nat.pow 10 exponent.toNat)
  else (numerator * Nat.pow 10 (-exponent).toNat, denominator)

/-- The exponent `k` for which a positive fraction lies between `10 ^ (k - 1)` and `10 ^ k`. Its
binary scale leaves two powers of ten to choose from, since `0.30103` is the logarithm of two as
closely as the range of doubles asks for. -/
def decimalScale (numerator denominator : Nat) : Int :=
  let power := binaryScale numerator denominator * 30103 / 100000 + 1
  let (top, bottom) := divideTens numerator denominator power
  if top < bottom then power else power + 1

/-- Where a value goes that lies halfway between two decimals. -/
inductive Tie where
  /-- To the larger magnitude. -/
  | up
  /-- To the decimal with an even last digit. -/
  | even
deriving Repr, DecidableEq

/-- Whether the decimal above is taken, given the last digits below and twice the distance to them
compared with the distance between the two decimals. -/
def Tie.takesAbove (tie : Tie) (below : Nat) : Ordering → Bool
  | .lt => false
  | .gt => true
  | .eq => match tie with
    | .up => true
    | .even => below % 2 = 1

/-- Of the two decimals with `digits` digits around a positive magnitude, the nearer one of those
that read back to it. -/
def readsBack? (tie : Tie) (magnitude : Double) (numerator denominator : Nat) (scale : Int)
    (digits : Nat) : Option Decimal :=
  let exponent := scale - digits
  let (top, bottom) := divideTens numerator denominator exponent
  let below : Decimal := ⟨top / bottom, exponent⟩
  let above : Decimal := ⟨top / bottom + 1, exponent⟩
  let (nearer, farther) :=
    if tie.takesAbove below.coefficient (compare (2 * (top % bottom)) bottom) then (above, below)
    else (below, above)
  if nearer.toDouble = magnitude then some nearer
  else if farther.toDouble = magnitude then some farther
  else none

/-- The shortest decimal that reads back to the magnitude of `x`, and of the shortest the nearest.
Seventeen digits always suffice; the exact expansion stands in should none read back. -/
def shortest (tie : Tie) (x : Exact) : Decimal :=
  let (numerator, denominator) := x.ratio
  let magnitude := Double.ofRatio false numerator denominator
  let scale := decimalScale numerator denominator
  let found := (List.range 17).findSome? fun n =>
    readsBack? tie magnitude numerator denominator scale (n + 1)
  found.getD <|
    if 0 ≤ x.exponent then ⟨numerator, 0⟩
    else ⟨x.significand * Nat.pow 5 (-x.exponent).toNat, x.exponent⟩

/-- How a double is written. -/
structure Layout where
  /-- The positional form is used for decimal points in this range of positions, counted from the
  left of the first digit; without a range it is always used. -/
  positional : Option (Int × Int)
  /-- Whether a whole number in positional form ends in `.0`. -/
  keepPoint : Bool
  /-- Whether a positive exponent carries a plus sign. -/
  plusSign : Bool
  /-- Which of two equally near shortest decimals is written. -/
  tie : Tie

namespace Layout

/-- Digits with the decimal point after the first `point` of them, filled up by zeros. -/
def place (digits : List Char) (point : Int) (keepPoint : Bool) : List Char :=
  if point ≤ 0 then
    '0' :: '.' :: (List.replicate (-point).toNat '0' ++ digits)
  else if digits.length ≤ point.toNat then
    digits ++ List.replicate (point.toNat - digits.length) '0' ++
      (if keepPoint then ['.', '0'] else [])
  else
    digits.take point.toNat ++ '.' :: digits.drop point.toNat

/-- Digits with the point after the first one and an exponent of ten. -/
def scale (digits : List Char) (point : Int) (plusSign : Bool) : List Char :=
  let exponent := point - 1
  let sign := if exponent < 0 then ['-'] else if plusSign then ['+'] else []
  digits.take 1 ++ (if digits.length ≤ 1 then [] else '.' :: digits.drop 1) ++
    'e' :: (sign ++ Nat.toDigits 10 exponent.natAbs)

/-- The digits without zeros at the end; they are filled in again by place. -/
def dropZeros (digits : List Char) : List Char :=
  (digits.reverse.dropWhile (· == '0')).reverse

/-- A non-negative finite double, in the layout's form. -/
def writeMagnitude (layout : Layout) (x : Exact) : List Char :=
  if x.significand = 0 then
    if layout.keepPoint then ['0', '.', '0'] else ['0']
  else
    let d := shortest layout.tie x
    let point := (digitCount d.coefficient : Int) + d.exponent
    let digits := dropZeros (Nat.toDigits 10 d.coefficient)
    match layout.positional with
    | none => place digits point layout.keepPoint
    | some (low, high) =>
      if low ≤ point ∧ point ≤ high then place digits point layout.keepPoint
      else scale digits point layout.plusSign

/-- The characters of a double: `NaN`, `inf` and `-inf` for those that are not finite. -/
def chars (layout : Layout) (x : Double) : List Char :=
  match x.exact? with
  | some e => (if e.negative then ['-'] else []) ++ layout.writeMagnitude e
  | none =>
    if x.isUndefined then ['N', 'a', 'N']
    else if x.negative then ['-', 'i', 'n', 'f']
    else ['i', 'n', 'f']

/-- The text of a double. -/
def write (layout : Layout) (x : Double) : String :=
  String.ofList (layout.chars x)

/-- Literals: positional from `0.0001` up to below `10¹⁶`, always with a point or an exponent. -/
def literal : Layout := ⟨some (-3, 16), true, false, .up⟩

/-- Messages: always positional, whole numbers without a point. -/
def plain : Layout := ⟨none, false, false, .up⟩

/-- JSON texts: positional from `0.00001` up to below `10¹⁶`, with signed exponents beyond. -/
def data : Layout := ⟨some (-4, 16), true, true, .even⟩

end Layout

end Covenant.Number
