import Covenant.Json.Decode
import Covenant.Json.Reader
import Covenant.Value.Basic

/-!
# Values as JSON

Values are exchanged as plain documents. An integer of a document that fits in 64 bits with a sign
is an integer and every other number a double; of members with one key the last counts.

## Main definitions

* `Value.toJson`, `Value.ofJson?`, `Value.parseJson?`.
-/

namespace Covenant.Value

mutual

/-- The document of a value. -/
def toJson : Value → Json
  | .string text => .string text
  | .number x => .number x
  | .integer n => .integer n.toInt
  | .boolean flag => .boolean flag
  | .object fields => .object (fieldsToJson fields)
  | .array items => .array (itemsToJson items)
  | .null => .null

/-- The documents of items. -/
def itemsToJson : List Value → List Json
  | [] => []
  | item :: rest => item.toJson :: itemsToJson rest

/-- The members of fields. -/
def fieldsToJson : List (String × Value) → List (String × Json)
  | [] => []
  | (key, value) :: rest => (key, value.toJson) :: fieldsToJson rest

end

mutual

/-- The value of a document; an unreadable part leaves none. -/
def ofJson? : Json → Option Value
  | .null => some .null
  | .boolean flag => some (.boolean flag)
  | .integer n =>
    match Number.integer? n with
    | some m => some (.integer m)
    | none => some (.number (Double.ofInteger n))
  | .number x => some (.number x)
  | .string text => some (.string text)
  | .array items => (itemsOfJson? [] items).map .array
  | .object members => (fieldsOfJson? [] members).map .object
  | .unreadable => none

/-- The values of items, behind those already read, the last of which comes first. -/
def itemsOfJson? (done : List Value) : List Json → Option (List Value)
  | [] => some done.reverse
  | item :: rest =>
    match ofJson? item with
    | some value => itemsOfJson? (value :: done) rest
    | none => none

/-- The fields of members, in addition to those already read. -/
def fieldsOfJson? (done : Table Value) : List (String × Json) → Option (Table Value)
  | [] => some done
  | (key, j) :: rest =>
    match ofJson? j with
    | some value => fieldsOfJson? (done.insert key value) rest
    | none => none

end

/-- The value that a JSON text writes. -/
def parseJson? (text : String) : Option Value :=
  (Json.parse? text).bind ofJson?

end Covenant.Value
