import Covenant.Number.Decimal
import Covenant.Table

/-!
# JSON documents

The documents that values, scripts, programs, templates and settings are exchanged as. A number is
an integer or a double, as its text tells, and an object keeps its members as written. A part that
was found in a text but has no content is kept as unreadable.

## Main definitions

* `Json`: documents.
* `Json.compact`: the text without any white space.
* `Json.pretty`: the text with one member or item on a line.
-/

namespace Covenant

/-- A JSON document. -/
inductive Json where
  | null
  | boolean (flag : Bool)
  | integer (n : Int)
  | number (x : Double)
  | string (text : String)
  | array (items : List Json)
  | object (members : List (String × Json))
  /-- Something well formed that nothing can be read from. -/
  | unreadable
deriving Inhabited

namespace Json

/-- The spelling of a character in a string: a quote, a backslash and the first 32 code points are
escaped, by a letter where there is one. -/
def escapeChar (c : Char) : List Char :=
  match c with
  | '"' => ['\\', '"']
  | '\\' => ['\\', '\\']
  | '\n' => ['\\', 'n']
  | '\r' => ['\\', 'r']
  | '\t' => ['\\', 't']
  | '\x08' => ['\\', 'b']
  | '\x0c' => ['\\', 'f']
  | c =>
    if c.toNat < 0x20 then
      ['\\', 'u', '0', '0', Nat.digitChar (c.toNat / 16), Nat.digitChar (c.toNat % 16)]
    else [c]

/-- A string between quotes. -/
def quote (text : String) : List Char :=
  '"' :: (text.toList.flatMap escapeChar ++ ['"'])

/-- The characters of a double. One that is not finite has no form in JSON and is written as
null. -/
def numberChars (x : Double) : List Char :=
  if x.isFinite then Number.Layout.data.chars x else "null".toList

mutual

/-- The characters of a document without any white space; null stands for what cannot be read. -/
def compactChars : Json → List Char
  | null | unreadable => "null".toList
  | boolean flag => if flag then "true".toList else "false".toList
  | integer n => Number.integerChars n
  | number x => numberChars x
  | string text => quote text
  | array items => '[' :: (compactItems items ++ [']'])
  | object members => '{' :: (compactMembers members ++ ['}'])

/-- The characters of items, parted by commas. -/
def compactItems : List Json → List Char
  | [] => []
  | [item] => compactChars item
  | item :: rest => compactChars item ++ ',' :: compactItems rest

/-- The characters of members, parted by commas. -/
def compactMembers : List (String × Json) → List Char
  | [] => []
  | [(key, value)] => quote key ++ ':' :: compactChars value
  | (key, value) :: rest => quote key ++ ':' :: (compactChars value ++ ',' :: compactMembers rest)

end

/-- The text of a document without any white space. -/
def compact (j : Json) : String :=
  String.ofList j.compactChars

/-- A new line that begins with two spaces for each level. -/
def newline (level : Nat) : List Char :=
  '\n' :: List.replicate (2 * level) ' '

mutual

/-- The characters of a document whose lines are indented by a level; null stands for what cannot
be read. -/
def prettyChars (level : Nat) : Json → List Char
  | array [] => ['[', ']']
  | array items => '[' :: (prettyItems (level + 1) items ++ newline level ++ [']'])
  | object [] => ['{', '}']
  | object members => '{' :: (prettyMembers (level + 1) members ++ newline level ++ ['}'])
  | null | unreadable => "null".toList
  | boolean flag => if flag then "true".toList else "false".toList
  | integer n => Number.integerChars n
  | number x => numberChars x
  | string text => quote text

/-- The characters of items, each on a line of its own. -/
def prettyItems (level : Nat) : List Json → List Char
  | [] => []
  | [item] => newline level ++ prettyChars level item
  | item :: rest => newline level ++ prettyChars level item ++ ',' :: prettyItems level rest

/-- The characters of members, each on a line of its own. -/
def prettyMembers (level : Nat) : List (String × Json) → List Char
  | [] => []
  | [(key, value)] => newline level ++ quote key ++ ':' :: ' ' :: prettyChars level value
  | (key, value) :: rest =>
    newline level ++ quote key ++ ':' :: ' ' :: (prettyChars level value ++
      ',' :: prettyMembers level rest)

end

/-- The text of a document with one member or item on a line, indented by two spaces a level. -/
def pretty (j : Json) : String :=
  String.ofList (prettyChars 0 j)

end Json

end Covenant
