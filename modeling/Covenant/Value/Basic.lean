import Covenant.Number.Arithmetic
import Covenant.Number.Numeral
import Covenant.Table

/-!
# Values

The values that scripts compute with: strings, doubles, 64-bit integers, booleans, objects, arrays
and null. Integers and doubles are different kinds. An object is a list of fields in ascending
order of their keys.

## Main definitions

* `Value` and `Value.Kind`: values and their kinds.
* `Value.identical`: same kind and same content, doubles bit for bit.
* `Value.equal`: the language's equality, under which an integer equals the double it converts to.
* `Value.Canonical`: every object inside ascends in its keys.
* `Value.depth`: the nesting of arrays and objects.
-/

namespace Covenant

/-- A value of the script language. -/
inductive Value where
  /-- A string of characters. -/
  | string (text : String)
  /-- A double. -/
  | number (x : Double)
  /-- A signed integer of 64 bits. -/
  | integer (n : Int64)
  /-- A truth value. -/
  | boolean (flag : Bool)
  /-- Fields in ascending order of their keys. -/
  | object (fields : List (String × Value))
  /-- Items in order. -/
  | array (items : List Value)
  /-- The absence of a value. -/
  | null
deriving Inhabited

namespace Value

/-- The kinds of values. -/
inductive Kind where
  | string
  | number
  | integer
  | boolean
  | object
  | array
  | null
deriving Repr, DecidableEq

/-- The name of a kind, as scripts and messages show it. -/
def Kind.name : Kind → String
  | .string => "string"
  | .number => "number"
  | .integer => "integer"
  | .boolean => "boolean"
  | .object => "object"
  | .array => "array"
  | .null => "null"

/-- The kind of a value. -/
def kind : Value → Kind
  | .string _ => .string
  | .number _ => .number
  | .integer _ => .integer
  | .boolean _ => .boolean
  | .object _ => .object
  | .array _ => .array
  | .null => .null

/-- The text of a string value. -/
def string? : Value → Option String
  | .string text => some text
  | _ => none

/-- The flag of a boolean value. -/
def boolean? : Value → Option Bool
  | .boolean flag => some flag
  | _ => none

/-- The integer of an integer value. -/
def integer? : Value → Option Int64
  | .integer n => some n
  | _ => none

/-- The number of a value of either numeric kind, integers converted to the nearest double. -/
def number? : Value → Option Double
  | .integer n => some (Double.ofInteger n.toInt)
  | .number x => some x
  | _ => none

/-- The items of an array value. -/
def array? : Value → Option (List Value)
  | .array items => some items
  | _ => none

/-- The fields of an object value. -/
def object? : Value → Option (Table Value)
  | .object fields => some fields
  | _ => none

/-- Whether a value is null. -/
def isNull : Value → Bool
  | .null => true
  | _ => false

/-- The object with these fields; of fields with one key the last wins. -/
def ofFields (fields : List (String × Value)) : Value :=
  .object (Table.ofList fields)

mutual

/-- Whether two values have the same kind and the same content, doubles bit for bit. -/
def identical : Value → Value → Bool
  | .string a, .string b => a == b
  | .number a, .number b => a == b
  | .integer a, .integer b => a == b
  | .boolean a, .boolean b => a == b
  | .object a, .object b => identicalFields a b
  | .array a, .array b => identicalItems a b
  | .null, .null => true
  | _, _ => false

/-- Whether two lists of values are identical item by item. -/
def identicalItems : List Value → List Value → Bool
  | [], [] => true
  | a :: as, b :: bs => identical a b && identicalItems as bs
  | _, _ => false

/-- Whether two lists of fields have the same keys and identical values. -/
def identicalFields : List (String × Value) → List (String × Value) → Bool
  | [], [] => true
  | (k, a) :: as, (l, b) :: bs => k == l && identical a b && identicalFields as bs
  | _, _ => false

end

mutual

/-- The language's equality. Values of different kinds differ, except that an integer equals the
double it converts to. -/
def equal : Value → Value → Bool
  | .string a, .string b => a == b
  | .number a, .number b => a.equal b
  | .integer a, .integer b => a == b
  | .integer a, .number b => (Double.ofInteger a.toInt).equal b
  | .number a, .integer b => (Double.ofInteger b.toInt).equal a
  | .boolean a, .boolean b => a == b
  | .object a, .object b => equalFields a b
  | .array a, .array b => equalItems a b
  | .null, .null => true
  | _, _ => false

/-- Whether two lists of values are equal item by item. -/
def equalItems : List Value → List Value → Bool
  | [], [] => true
  | a :: as, b :: bs => equal a b && equalItems as bs
  | _, _ => false

/-- Whether two lists of fields have the same keys and equal values. -/
def equalFields : List (String × Value) → List (String × Value) → Bool
  | [], [] => true
  | (k, a) :: as, (l, b) :: bs => k == l && equal a b && equalFields as bs
  | _, _ => false

end

mutual

/-- Every object inside the value ascends in its keys. -/
def Canonical : Value → Prop
  | .object fields => Table.Ascending fields ∧ CanonicalFields fields
  | .array items => CanonicalItems items
  | _ => True

/-- Every object inside the items ascends in its keys. -/
def CanonicalItems : List Value → Prop
  | [] => True
  | item :: rest => item.Canonical ∧ CanonicalItems rest

/-- Every object inside the field values ascends in its keys. -/
def CanonicalFields : List (String × Value) → Prop
  | [] => True
  | (_, value) :: rest => value.Canonical ∧ CanonicalFields rest

end

mutual

/-- The nesting of a value: one for a scalar or an empty container, and one more than the deepest
element for any other container. -/
def depth : Value → Nat
  | .object fields => depthFields fields + 1
  | .array items => depthItems items + 1
  | _ => 1

/-- The greatest nesting among items, zero if there are none. -/
def depthItems : List Value → Nat
  | [] => 0
  | item :: rest => max item.depth (depthItems rest)

/-- The greatest nesting among field values, zero if there are none. -/
def depthFields : List (String × Value) → Nat
  | [] => 0
  | (_, value) :: rest => max value.depth (depthFields rest)

end

end Value

end Covenant
