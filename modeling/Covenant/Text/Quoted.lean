import Covenant.Text.CharClass

/-!
# Quoted strings

The source form of a string: its characters between double quotes, with a backslash before a quote
or a backslash, letters for the common control characters and code points for the others. Whatever
the string, its quoted form holds no control character and no quote but the two at its ends and
those behind a backslash.

## Main definitions

* `escapeChar`: the spelling of one character.
* `quote`: the spelling of a string.
-/

namespace Covenant.Text

/-- The spelling of one character inside a quoted string. -/
def escapeChar (c : Char) : List Char :=
  match c with
  | '"' => ['\\', '"']
  | '\\' => ['\\', '\\']
  | '\n' => ['\\', 'n']
  | '\r' => ['\\', 'r']
  | '\t' => ['\\', 't']
  | '\x00' => ['\\', '0']
  | c =>
    if isControl c then '\\' :: 'u' :: '{' :: (Nat.toDigits 16 c.toNat ++ ['}'])
    else [c]

/-- A string between quotes, each character spelt by `escapeChar`. -/
def quote (text : String) : List Char :=
  '"' :: (text.toList.flatMap escapeChar ++ ['"'])

end Covenant.Text
