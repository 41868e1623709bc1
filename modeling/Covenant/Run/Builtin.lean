import Covenant.Error
import Covenant.Value.Render

/-!
# Built-in functions

The functions that every script may call without permission. They depend on nothing but their
arguments, except that `now` shows the clock and `print` writes a line.

## Main definitions

* `Builtin`, `Builtin.name`, `Builtin.ofName?`.
* `Builtin.apply`: the result of a call.
* `Builtin.line?`: the line that a call writes.
-/

namespace Covenant

/-- The built-in functions, in order of their names. -/
inductive Builtin where
  | abs
  | contains
  | hasKey
  | keys
  | len
  | max
  | min
  | now
  | print
  | push
  | round
  | toInteger
  | toNumber
  | toText
  | typeOf
  | values
deriving Repr, DecidableEq

namespace Builtin

/-- All built-in functions. -/
def all : List Builtin :=
  [abs, contains, hasKey, keys, len, max, min, now, print, push, round, toInteger, toNumber,
   toText, typeOf, values]

/-- The name under which scripts call a function. -/
def name : Builtin → String
  | abs => "abs"
  | contains => "contains"
  | hasKey => "has_key"
  | keys => "keys"
  | len => "len"
  | max => "max"
  | min => "min"
  | now => "now"
  | print => "print"
  | push => "push"
  | round => "round"
  | toInteger => "to_integer"
  | toNumber => "to_number"
  | toText => "to_string"
  | typeOf => "type_of"
  | values => "values"

/-- The function with a name. -/
def ofName? (text : String) : Option Builtin :=
  all.find? fun b => b.name = text

/-- Whether a name is that of a built-in function. -/
def isName (text : String) : Bool :=
  (ofName? text).isSome

/-! ### Results -/

/-- The function does not take an argument of this kind. -/
def notAccepted {α : Type} (b : Builtin) (value : Value) : Except Error α :=
  .error (.type (.notAccepted b.name value.kind))

/-- The function does not take this many arguments. -/
def wrongCount {α : Type} (b : Builtin) (takes : Nat) (args : List Value) : Except Error α :=
  .error (.type (.argumentCount b.name takes args.length))

/-- Passes on the only argument. -/
def unary (b : Builtin) (f : Value → Except Error Value) : List Value → Except Error Value
  | [value] => f value
  | args => wrongCount b 1 args

/-- Passes on the two arguments. -/
def binary (b : Builtin) (f : Value → Value → Except Error Value) :
    List Value → Except Error Value
  | [left, right] => f left right
  | args => wrongCount b 2 args

/-- An integer value from a count. -/
def count (n : Nat) : Value :=
  .integer (Int64.ofNat n)

/-- The number of characters, items or fields. -/
def lengthOf : Value → Except Error Value
  | .string text => .ok (count text.length)
  | .array items => .ok (count items.length)
  | .object fields => .ok (count fields.length)
  | value => notAccepted len value

/-- The integer that a number is cut to or that a text writes. -/
def integerOf : Value → Except Error Value
  | .integer n => .ok (.integer n)
  | .number x =>
    match x.exact?.bind fun e => Number.integer? e.truncate with
    | some n => .ok (.integer n)
    | none => .error (.arithmetic (.notIntegral x))
  | .string text =>
    match Number.readInteger? (Text.trim text) with
    | some n => .ok (.integer n)
    | none => .error (.type (.notAnInteger text))
  | value => notAccepted toInteger value

/-- The double that an integer converts to or that a text writes. -/
def numberOf : Value → Except Error Value
  | .integer n => .ok (.number (Double.ofInteger n.toInt))
  | .number x => .ok (.number x)
  | .string text =>
    match Number.readDouble? (Text.trim text) with
    | some x => .ok (.number x)
    | none => .error (.type (.notANumber text))
  | value => notAccepted toNumber value

/-- The keys of an object in order. -/
def keysOf : Value → Except Error Value
  | .object fields => .ok (.array ((Table.keys fields).map .string))
  | value => notAccepted keys value

/-- The field values of an object in the order of the keys. -/
def valuesOf : Value → Except Error Value
  | .object fields => .ok (.array (Table.values fields))
  | value => notAccepted values value

/-- Whether an object has a key. -/
def objectHasKey : Value → Value → Except Error Value
  | .object fields, .string key => .ok (.boolean (Table.contains key fields))
  | .object _, key => notAccepted hasKey key
  | value, _ => notAccepted hasKey value

/-- Whether some characters stand side by side in others. -/
def occursIn (needle : List Char) : List Char → Bool
  | [] => needle.isEmpty
  | c :: rest => needle.isPrefixOf (c :: rest) || occursIn needle rest

/-- Whether an array has an equal item, a string a part, or an object a key. -/
def holds : Value → Value → Except Error Value
  | .array items, needle => .ok (.boolean (items.any fun item => item.equal needle))
  | .string text, .string needle => .ok (.boolean (occursIn needle.toList text.toList))
  | .object fields, .string key => .ok (.boolean (Table.contains key fields))
  | value, _ => notAccepted contains value

/-- An array with one more item. -/
def pushed : Value → Value → Except Error Value
  | .array items, item => .ok (.array (items ++ [item]))
  | value, _ => notAccepted push value

/-- The magnitude of a number. -/
def magnitude : Value → Except Error Value
  | .integer n =>
    match Number.integer? n.toInt.natAbs with
    | some m => .ok (.integer m)
    | none => .error (.arithmetic .absOverflow)
  | .number x => .ok (.number x.abs)
  | value => notAccepted abs value

/-- The nearest integer, in the kind of the argument. -/
def rounded : Value → Except Error Value
  | .integer n => .ok (.integer n)
  | .number x => .ok (.number x.roundHalfAway)
  | value => notAccepted round value

/-- The first argument that no other precedes in the wanted order, where all are compared as
doubles: a later one takes the place of the best so far only if it is strictly better. -/
def extreme (b : Builtin) (better : Ordering) :
    Option (Value × Double) → List Value → Except Error Value
  | none, [] => .error (.type (.noArguments b.name))
  | some (best, _), [] => .ok best
  | best, value :: rest =>
    match value.number? with
    | none => notAccepted b value
    | some x =>
      match best with
      | some (kept, y) =>
        if x.order? y = some better then extreme b better (some (value, x)) rest
        else extreme b better (some (kept, y)) rest
      | none => extreme b better (some (value, x)) rest

/-- The result of a call, given the text that the clock shows. -/
def apply (clock : String) (b : Builtin) (args : List Value) : Except Error Value :=
  match b with
  | abs => unary abs magnitude args
  | contains => binary contains holds args
  | hasKey => binary hasKey objectHasKey args
  | keys => unary keys keysOf args
  | len => unary len lengthOf args
  | max => extreme max .gt none args
  | min => extreme min .lt none args
  | now => if args.isEmpty then .ok (.string clock) else wrongCount now 0 args
  | print => .ok .null
  | push => binary push pushed args
  | round => unary round rounded args
  | toInteger => unary toInteger integerOf args
  | toNumber => unary toNumber numberOf args
  | toText => unary toText (fun value => .ok (.string value.display)) args
  | typeOf => unary typeOf (fun value => .ok (.string value.kind.name)) args
  | values => unary values valuesOf args

/-- The line that a call writes: the arguments as they are printed, parted by spaces. -/
def line? (b : Builtin) (args : List Value) : Option String :=
  match b with
  | print => some (String.intercalate " " (args.map Value.display))
  | _ => none

end Builtin

end Covenant
