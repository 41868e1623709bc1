import Covenant.Number.Decimal
import Covenant.Text.CharClass

/-!
# Dates

The texts that count as dates. A timestamp has a date, a time of day and an offset from universal
time, each part with a fixed number of digits. A plain date is a year, a month and a day, where each
number may have blanks in front and need not be filled up with zeros, and a year with a sign may
have any number of digits. The calendar is the Gregorian one, for all years.

## Main definitions

* `isDayOf`: the days of a month.
* `isTimestamp`, `isPlainDate`, `isDate`.
-/

namespace Covenant.Calendar

/-- Leap years: every fourth, of the centuries every fourth. -/
def isLeapYear (year : Int) : Bool :=
  year % 4 = 0 && (year % 100 ≠ 0 || year % 400 = 0)

/-- The number of days of a month. -/
def daysIn (year : Int) (month : Nat) : Nat :=
  match month with
  | 2 => if isLeapYear year then 29 else 28
  | 4 | 6 | 9 | 11 => 30
  | _ => 31

/-- The least and the greatest year of the calendar. -/
def yearRange : Int × Int := (-262143, 262142)

/-- Whether there is a day with this number in the month. -/
def isDayOf (year : Int) (month day : Nat) : Bool :=
  yearRange.1 ≤ year && year ≤ yearRange.2 &&
    1 ≤ month && month ≤ 12 && 1 ≤ day && day ≤ daysIn year month

/-! ### Reading -/

/-- A number of `least` to `most` digits; more digits are left. -/
def number? (least most : Nat) (cs : List Char) : Option (Nat × List Char) :=
  let digits := (cs.takeWhile Text.isDigit).take most
  if digits.length < least then none
  else some (Number.ofDigits digits, cs.drop digits.length)

/-- A number of at least one digit. -/
def longNumber? (cs : List Char) : Option (Nat × List Char) :=
  number? 1 cs.length cs

/-- What follows a character. -/
def char? (c : Char) : List Char → Option (List Char)
  | d :: rest => if c = d then some rest else none
  | [] => none

/-- A number of two digits below a bound. -/
def twoDigits? (bound : Nat) (cs : List Char) : Option (Nat × List Char) := do
  let (n, rest) ← number? 2 2 cs
  if n < bound then return (n, rest) else none

/-- What follows the fraction of a second, if there is one. -/
def afterFraction? : List Char → Option (List Char)
  | '.' :: rest => if rest.head?.any Text.isDigit then some (rest.dropWhile Text.isDigit) else none
  | cs => some cs

/-- What follows a sign: plus, hyphen or the minus sign proper. -/
def afterSign? : List Char → Option (List Char)
  | c :: rest => if c = '+' || c = '-' || c = '\u2212' then some rest else none
  | [] => none

/-- What follows an offset from universal time: its letter, or a sign with hours and minutes. -/
def afterOffset? (cs : List Char) : Option (List Char) :=
  match cs with
  | 'Z' :: rest => some rest
  | 'z' :: rest => some rest
  | _ => do
    let rest ← afterSign? cs
    let (_, rest) ← twoDigits? 24 rest
    let rest ← char? ':' rest
    let (_, rest) ← twoDigits? 60 rest
    return rest

/-- What follows the mark between date and time: the letter in either case, or a space. -/
def afterMark? : List Char → Option (List Char)
  | c :: rest => if c = 'T' || c = 't' || c = ' ' then some rest else none
  | [] => none

/-- What follows a timestamp. A minute may have a sixty-first second. -/
def afterTimestamp? (cs : List Char) : Option (List Char) := do
  let (year, rest) ← number? 4 4 cs
  let rest ← char? '-' rest
  let (month, rest) ← number? 2 2 rest
  let rest ← char? '-' rest
  let (day, rest) ← number? 2 2 rest
  if !isDayOf year month day then none
  let rest ← afterMark? rest
  let (_, rest) ← twoDigits? 24 rest
  let rest ← char? ':' rest
  let (_, rest) ← twoDigits? 60 rest
  let rest ← char? ':' rest
  let (_, rest) ← twoDigits? 61 rest
  let rest ← afterFraction? rest
  afterOffset? rest

/-- A year, perhaps with blanks in front: up to four digits, or any number of them behind a sign. -/
def year? (cs : List Char) : Option (Int × List Char) :=
  match cs.dropWhile Text.isBlank with
  | '-' :: rest => (longNumber? rest).map fun (n, rest) => (-(n : Int), rest)
  | '+' :: rest => (longNumber? rest).map fun (n, rest) => ((n : Int), rest)
  | rest => (number? 1 4 rest).map fun (n, rest) => ((n : Int), rest)

/-- A month or day, perhaps with blanks in front. -/
def part? (cs : List Char) : Option (Nat × List Char) :=
  number? 1 2 (cs.dropWhile Text.isBlank)

/-- What follows a plain date. -/
def afterPlainDate? (cs : List Char) : Option (List Char) := do
  let (year, rest) ← year? cs
  let rest ← char? '-' rest
  let (month, rest) ← part? rest
  let rest ← char? '-' rest
  let (day, rest) ← part? rest
  if isDayOf year month day then return rest else none

/-- Whether a text is a timestamp. -/
def isTimestamp (text : String) : Bool :=
  afterTimestamp? text.toList == some []

/-- Whether a text is a plain date. -/
def isPlainDate (text : String) : Bool :=
  afterPlainDate? text.toList == some []

/-- Whether a text is a timestamp or a plain date. -/
def isDate (text : String) : Bool :=
  isTimestamp text || isPlainDate text

end Covenant.Calendar
