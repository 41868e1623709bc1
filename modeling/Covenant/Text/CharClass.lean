import Covenant.Text.LetterTable
import Covenant.Text.NumeralTable

/-!
# Character classes

The classes of characters that scripts, templates and conversions distinguish. Each is a decidable
predicate on `Char`; the classes beyond ASCII are read from range tables.

## Main definitions

* `isBlank`: white space between tokens and around the text of a number.
* `isLetter`, `isNumeral`: what words are made of.
* `isControl`: the characters a rendered string spells by code point.
* `isDigit`: the ASCII digits, the only ones a number is written with.
* `trim`: a text without the blanks at its two ends.
-/

namespace Covenant.Text

/-- Whether the code point of `c` lies in one of the inclusive ranges. -/
def inRanges (ranges : List (Nat × Nat)) (c : Char) : Bool :=
  ranges.any fun (low, high) => low ≤ c.toNat && c.toNat ≤ high

/-- The code points of white space, as inclusive ranges. -/
def blankRanges : List (Nat × Nat) :=
  [(0x09, 0x0d), (0x20, 0x20), (0x85, 0x85), (0xa0, 0xa0), (0x1680, 0x1680), (0x2000, 0x200a),
   (0x2028, 0x2029), (0x202f, 0x202f), (0x205f, 0x205f), (0x3000, 0x3000)]

/-- White space, in ASCII or beyond. -/
def isBlank (c : Char) : Bool :=
  inRanges blankRanges c

/-- An ASCII digit. -/
def isDigit (c : Char) : Bool :=
  '0' ≤ c && c ≤ '9'

/-- An ASCII letter. -/
def isAsciiLetter (c : Char) : Bool :=
  ('a' ≤ c && c ≤ 'z') || ('A' ≤ c && c ≤ 'Z')

/-- A letter, in ASCII or beyond. -/
def isLetter (c : Char) : Bool :=
  if c.toNat < 128 then isAsciiLetter c else inRanges letterRanges c

/-- A numeral, in ASCII or beyond. -/
def isNumeral (c : Char) : Bool :=
  if c.toNat < 128 then isDigit c else inRanges numeralRanges c

/-- A control character: one of the first 32 code points or of those from 0x7f to 0x9f. -/
def isControl (c : Char) : Bool :=
  c.toNat < 0x20 || (0x7f ≤ c.toNat && c.toNat ≤ 0x9f)

/-- The value of an ASCII digit. -/
def digitValue (c : Char) : Nat :=
  c.toNat - '0'.toNat

/-- The value of a hexadecimal digit of either case. -/
def hexValue? (c : Char) : Option Nat :=
  if isDigit c then some (digitValue c)
  else if 'a' ≤ c && c ≤ 'f' then some (c.toNat - 'a'.toNat + 10)
  else if 'A' ≤ c && c ≤ 'F' then some (c.toNat - 'A'.toNat + 10)
  else none

/-- The characters without the blanks at their two ends. -/
def trimChars (cs : List Char) : List Char :=
  ((cs.dropWhile isBlank).reverse.dropWhile isBlank).reverse

/-- A text without the blanks at its two ends. -/
def trim (text : String) : String :=
  String.ofList (trimChars text.toList)

end Covenant.Text
