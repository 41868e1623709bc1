import Covenant.Text.Quoted
import Covenant.Value.Basic

/-!
# Values as source text

`Value.render` writes a value as script source that evaluates to it again; the doubles that are not
finite have no literal and are written by name. `Value.display` is the text that `print` shows: the
same, except that a string stands without quotes and every integer in plain decimal.

## Main definitions

* `Value.renderChars`, `Value.render`: the source form.
* `Value.display`: the printed form.
-/

namespace Covenant.Value

/-- The source form of an integer. The least one has no literal, since a minus sign is an operator
and its operand would be out of range, so it is written as a difference. -/
def integerChars (n : Int64) : List Char :=
  if n = Int64.minValue then "(-9223372036854775807 - 1)".toList
  else Number.integerChars n.toInt

mutual

/-- The characters of the source form of a value. -/
def renderChars : Value → List Char
  | .string text => Text.quote text
  | .number x => Number.Layout.literal.chars x
  | .integer n => integerChars n
  | .boolean flag => if flag then "true".toList else "false".toList
  | .null => "null".toList
  | .array items => '[' :: (renderItems items ++ [']'])
  | .object fields => '{' :: (renderFields fields ++ ['}'])

/-- The source forms of items, parted by a comma and a space. -/
def renderItems : List Value → List Char
  | [] => []
  | [item] => renderChars item
  | item :: rest => renderChars item ++ ',' :: ' ' :: renderItems rest

/-- Quoted keys and the source forms of their values, parted by a comma and a space. -/
def renderFields : List (String × Value) → List Char
  | [] => []
  | [(key, value)] => Text.quote key ++ ':' :: ' ' :: renderChars value
  | (key, value) :: rest =>
    Text.quote key ++ ':' :: ' ' :: (renderChars value ++ ',' :: ' ' :: renderFields rest)

end

/-- The source form of a value. -/
def render (value : Value) : String :=
  String.ofList value.renderChars

/-- The printed form of a value. -/
def display : Value → String
  | .string text => text
  | .integer n => Number.integerText n.toInt
  | value => value.render

end Covenant.Value
