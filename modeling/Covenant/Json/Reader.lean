import Covenant.Json.Basic
import Covenant.Number.Numeral

/-!
# Reading JSON

White space is space, tab, line feed and carriage return, nothing follows the document, and strings
hold no raw control character.

A number without fraction and exponent is an integer if it fits in 64 bits, signed or not, and a
double otherwise; so is minus zero. Doubles are read exactly: each is the one nearest to the number
that is written, however many digits that has.

Some well-formed parts of a text have no content: a number beyond every double, a string with half
of a character that takes two code units, an object with such a key, and arrays and objects within
127 others. They are taken for unreadable and do no harm where nobody reads them.

## Main definitions

* `Json.readScalar?`: a document in front of a text that is neither array nor object.
* `Json.skip?`: what follows arrays and objects that are not read.
* `Json.readValue?`: a document in front of a text.
* `Json.parse?`: the document that a text is.
-/

namespace Covenant.Json

/-- The most arrays and objects that may be open at a time. -/
def maxOpen : Nat := 127

/-- White space between the parts of a document. -/
def isSpace (c : Char) : Bool :=
  c = ' ' || c = '\t' || c = '\n' || c = '\r'

/-- What follows the white space in front. -/
def skipSpace (cs : List Char) : List Char :=
  cs.dropWhile isSpace

/-! ### Numbers -/

/-- The double with a sign and a magnitude, if it is finite. -/
def ofMagnitude (negative : Bool) (x : Double) : Json :=
  if x.isFinite then .number (if negative then x.neg else x) else .unreadable

/-- The integer that fits in 64 bits, signed or not, or the double that the digits write. -/
def ofWhole (negative : Bool) (digits : List Char) : Json :=
  let magnitude := Number.ofDigits digits
  if negative && decide (0 < magnitude ∧ magnitude ≤ Nat.pow 2 63) then
    .integer (-(magnitude : Int))
  else if !negative && decide (magnitude < Nat.pow 2 64) then .integer magnitude
  else ofMagnitude negative (Number.Decimal.toDouble ⟨magnitude, 0⟩)

/-- The whole part of a number: a zero alone, or digits that do not begin with one. -/
def readWhole? (cs : List Char) : Option (List Char × List Char) :=
  match cs with
  | '0' :: rest => if rest.head?.any Text.isDigit then none else some (['0'], rest)
  | _ =>
    let (digits, rest) := Number.spanDigits cs
    if digits.isEmpty then none else some (digits, rest)

/-- The digits that must follow a point or an exponent mark. -/
def readDigits? (cs : List Char) : Option (List Char × List Char) :=
  let (digits, rest) := Number.spanDigits cs
  if digits.isEmpty then none else some (digits, rest)

/-- The fraction behind a whole part; without a point there is none. -/
def readFraction? (cs : List Char) : Option (Option (List Char) × List Char) :=
  match cs with
  | '.' :: rest => (readDigits? rest).map fun (digits, after) => (some digits, after)
  | _ => some (none, cs)

/-- The exponent behind a number; without a mark there is none. -/
def readExponent? (cs : List Char) : Option (Option Int × List Char) :=
  match cs with
  | [] => some (none, [])
  | mark :: rest =>
    if mark = 'e' || mark = 'E' then
      let (negative, rest) := Number.splitSign rest
      (readDigits? rest).map fun (digits, after) =>
        let magnitude : Int := Number.ofDigits digits
        (some (if negative then -magnitude else magnitude), after)
    else some (none, cs)

/-- A number without its sign. With a fraction or an exponent it is the double nearest to what is
written. -/
def readNumber? (negative : Bool) (cs : List Char) : Option (Json × List Char) := do
  let (whole, rest) ← readWhole? cs
  let (fraction, rest) ← readFraction? rest
  let (exponent, rest) ← readExponent? rest
  if fraction.isNone && exponent.isNone then
    return (ofWhole negative whole, rest)
  else
    let decimals := fraction.getD []
    let d : Number.Decimal :=
      ⟨Number.ofDigits (whole ++ decimals), exponent.getD 0 - decimals.length⟩
    return (ofMagnitude negative d.toDouble, rest)

/-! ### Strings -/

/-- Four hexadecimal digits and what follows them. -/
def readHex4? : List Char → Option (Nat × List Char)
  | a :: b :: c :: d :: rest => do
    let a ← Text.hexValue? a
    let b ← Text.hexValue? b
    let c ← Text.hexValue? c
    let d ← Text.hexValue? d
    return (((a * 16 + b) * 16 + c) * 16 + d, rest)
  | _ => none

/-- The second unit of a character that takes two, if it comes next. -/
def readLowUnit? : List Char → Option (Nat × List Char)
  | '\\' :: 'u' :: rest => do
    let (unit, rest) ← readHex4? rest
    if 0xdc00 ≤ unit ∧ unit < 0xe000 then return (unit, rest) else none
  | _ => none

/-- The character of an escape by code units, behind its letter. A character beyond the first
65536 takes two; half of one is no character. -/
def readUnits? (cs : List Char) : Option (Option Char × List Char) := do
  let (unit, rest) ← readHex4? cs
  if 0xd800 ≤ unit ∧ unit < 0xdc00 then
    match readLowUnit? rest with
    | some (low, rest) =>
      return (some (Char.ofNat (0x10000 + (unit - 0xd800) * 0x400 + (low - 0xdc00))), rest)
    | none => return (none, rest)
  else if 0xdc00 ≤ unit ∧ unit < 0xe000 then return (none, rest)
  else return (some (Char.ofNat unit), rest)

/-- The character of an escape, behind its backslash. -/
def readEscape? : List Char → Option (Option Char × List Char)
  | '"' :: rest => some (some '"', rest)
  | '\\' :: rest => some (some '\\', rest)
  | '/' :: rest => some (some '/', rest)
  | 'b' :: rest => some (some '\x08', rest)
  | 'f' :: rest => some (some '\x0c', rest)
  | 'n' :: rest => some (some '\n', rest)
  | 'r' :: rest => some (some '\r', rest)
  | 't' :: rest => some (some '\t', rest)
  | 'u' :: rest => readUnits? rest
  | _ => none

/-- The rest of a string behind its opening quote, or that it is not readable. Each round reads one
character; those read so far are in `decoded`, the last one first. -/
def readString? : Nat → Bool → List Char → List Char → Option (Option String × List Char)
  | 0, _, _, _ => none
  | _ + 1, _, _, [] => none
  | n + 1, readable, decoded, c :: rest =>
    if c = '"' then
      some (if readable then some (String.ofList decoded.reverse) else none, rest)
    else if c = '\\' then
      match readEscape? rest with
      | some (some d, rest) => readString? n readable (d :: decoded) rest
      | some (none, rest) => readString? n false decoded rest
      | none => none
    else if c.toNat < 0x20 then none
    else readString? n readable (c :: decoded) rest

/-! ### Documents -/

/-- The document of a string. -/
def ofText : Option String → Json
  | some text => .string text
  | none => .unreadable

/-- The object with these members; one key that cannot be read leaves none of it. -/
def ofMembers (members : List (Option String × Json)) : Json :=
  match members.mapM fun (key, value) => key.map (·, value) with
  | some members => .object members
  | none => .unreadable

/-- A word in front of a text, and the document it stands for. -/
def readWord? (word : String) (j : Json) (cs : List Char) : Option (Json × List Char) :=
  let letters := word.toList
  if letters.isPrefixOf cs then some (j, cs.drop letters.length) else none

/-- A document in front of a text that is neither array nor object. -/
def readScalar? (n : Nat) (cs : List Char) : Option (Json × List Char) :=
  match cs with
  | '"' :: rest => (readString? n true [] rest).map fun (text, rest) => (ofText text, rest)
  | 'n' :: _ => readWord? "null" .null cs
  | 't' :: _ => readWord? "true" (.boolean true) cs
  | 'f' :: _ => readWord? "false" (.boolean false) cs
  | '-' :: rest => readNumber? true rest
  | _ => readNumber? false cs

/-- The key of a member with its colon. -/
def readKey? (n : Nat) (cs : List Char) : Option (Option String × List Char) :=
  match cs with
  | '"' :: rest =>
    match readString? n true [] rest with
    | some (key, rest) =>
      match skipSpace rest with
      | ':' :: rest => some (key, rest)
      | _ => none
    | none => none
  | _ => none

/-- Something that is open while its parts are skipped. -/
inductive Opened where
  | array
  | object
deriving Repr, DecidableEq

/-- The character that closes it. -/
def Opened.closing : Opened → Char
  | .array => ']'
  | .object => '}'

/-- What comes next in a text that is skipped. -/
inductive Expected where
  /-- A document. -/
  | value
  /-- A key with the colon behind it. -/
  | key
  /-- The first part of the innermost array or object, or its end. -/
  | first
  /-- A comma and another part of it, or its end. -/
  | next
deriving Repr, DecidableEq

/-- What a part of an array or object begins with. -/
def Opened.part : Opened → Expected
  | .array => .value
  | .object => .key

/-- What follows when all that is open, the innermost first, has been closed. -/
def skip? : Nat → Expected → List Opened → List Char → Option (List Char)
  | 0, _, _, _ => none
  | _ + 1, _, [], cs => some cs
  | n + 1, expected, inner :: outer, cs =>
    match expected, skipSpace cs with
    | .value, '[' :: rest => skip? n .first (.array :: inner :: outer) rest
    | .value, '{' :: rest => skip? n .first (.object :: inner :: outer) rest
    | .value, rest =>
      match readScalar? (n + 1) rest with
      | some (_, rest) => skip? n .next (inner :: outer) rest
      | none => none
    | .key, rest =>
      match readKey? (n + 1) rest with
      | some (_, rest) => skip? n .value (inner :: outer) rest
      | none => none
    | .first, rest =>
      match rest with
      | [] => none
      | c :: after =>
        if c = inner.closing then skip? n .next outer after
        else skip? n inner.part (inner :: outer) rest
    | .next, rest =>
      match rest with
      | [] => none
      | c :: after =>
        if c = inner.closing then skip? n .next outer after
        else if c = ',' then skip? n inner.part (inner :: outer) after
        else none

mutual

/-- A document in front of a text, with `depth` arrays and objects that may still be opened. The
allowance exceeds twice the number of characters. -/
def readValue? : Nat → Nat → List Char → Option (Json × List Char)
  | 0, _, _ => none
  | n + 1, depth, cs =>
    match skipSpace cs with
    | '[' :: rest =>
      match depth with
      | 0 => (skip? n .first [.array] rest).map (.unreadable, ·)
      | depth + 1 =>
        match skipSpace rest with
        | ']' :: rest => some (.array [], rest)
        | rest => readItems? n depth [] rest
    | '{' :: rest =>
      match depth with
      | 0 => (skip? n .first [.object] rest).map (.unreadable, ·)
      | depth + 1 =>
        match skipSpace rest with
        | '}' :: rest => some (.object [], rest)
        | rest => readMembers? n depth [] rest
    | rest => readScalar? (n + 1) rest
termination_by structural n => n

/-- Items up to the closing bracket, behind those already read, the last of which comes first. -/
def readItems? : Nat → Nat → List Json → List Char → Option (Json × List Char)
  | 0, _, _, _ => none
  | n + 1, depth, items, cs =>
    match readValue? n depth cs with
    | none => none
    | some (item, rest) =>
      match skipSpace rest with
      | ',' :: rest => readItems? n depth (item :: items) rest
      | ']' :: rest => some (.array (item :: items).reverse, rest)
      | _ => none
termination_by structural n => n

/-- Members up to the closing brace, behind those already read, the last of which comes first. -/
def readMembers? :
    Nat → Nat → List (Option String × Json) → List Char → Option (Json × List Char)
  | 0, _, _, _ => none
  | n + 1, depth, members, cs =>
    match readKey? (n + 1) (skipSpace cs) with
    | none => none
    | some (key, rest) =>
      match readValue? n depth rest with
      | none => none
      | some (value, rest) =>
        match skipSpace rest with
        | ',' :: rest => readMembers? n depth ((key, value) :: members) rest
        | '}' :: rest => some (ofMembers ((key, value) :: members).reverse, rest)
        | _ => none
termination_by structural n => n

end

/-- The document that a text is. -/
def parse? (text : String) : Option Json :=
  let cs := text.toList
  match readValue? (2 * cs.length + 2) maxOpen cs with
  | some (j, rest) => if (skipSpace rest).isEmpty then some j else none
  | none => none

end Covenant.Json
