import Covenant.Error

/-!
# What operators compute

The results of operators, field access and indexing on values. The interpreter, the constant folder
and the machine all use these definitions. Arithmetic takes two integers or two doubles and never
mixes them; comparison and equality do.

## Main definitions

* `BinaryOp.apply`, `UnaryOp.apply`: results of operators.
* `Value.property`, `Value.index`: access to parts.
* `requireBoolean`: the flag of a boolean, or an error that names who needed it.
-/

namespace Covenant

/-- The flag of a boolean; `context` names the construct that needs it. -/
def requireBoolean (context : String) (value : Value) : Except Error Bool :=
  match value.boolean? with
  | some flag => .ok flag
  | none => .error (.type (.needsBoolean context value.kind))

namespace BinaryOp

/-- The result of integer arithmetic before its range is checked. Division cuts toward zero, and a
remainder has the sign of the dividend. -/
def wide (op : BinaryOp) (a b : Int) : Int :=
  match op with
  | add => a + b
  | subtract => a - b
  | multiply => a * b
  | divide => a.tdiv b
  | _ => a.tmod b

/-- Integer arithmetic. The remainder of the least integer by minus one counts as an overflow, as
the quotient does. -/
def integers (op : BinaryOp) (a b : Int64) : Except Error Int64 :=
  if op = divide ∧ b = 0 then .error (.arithmetic .divisionByZero)
  else if op = modulo ∧ b = 0 then .error (.arithmetic .moduloByZero)
  else if op = modulo ∧ a = Int64.minValue ∧ b = -1 then .error (.arithmetic (.overflow op a b))
  else
    match Number.integer? (op.wide a.toInt b.toInt) with
    | some n => .ok n
    | none => .error (.arithmetic (.overflow op a b))

/-- Arithmetic on doubles. Division by zero is an error; every other operation has a result. -/
def numbers (op : BinaryOp) (a b : Double) : Except Error Double :=
  match op with
  | add => .ok (a.add b)
  | subtract => .ok (a.sub b)
  | multiply => .ok (a.mul b)
  | divide => if b.isZero then .error (.arithmetic .divisionByZero) else .ok (a.div b)
  | _ => if b.isZero then .error (.arithmetic .moduloByZero) else .ok (a.remainder b)

/-- Arithmetic on two values of one numeric kind. -/
def arithmetic (op : BinaryOp) (left right : Value) : Except Error Value :=
  match left, right with
  | .integer a, .integer b => (op.integers a b).map .integer
  | .number a, .number b => (op.numbers a b).map .number
  | _, _ => .error (.type (.unsupportedOperands op left.kind right.kind))

/-- Addition also joins strings and arrays. -/
def sum (left right : Value) : Except Error Value :=
  match left, right with
  | .string a, .string b => .ok (.string (a ++ b))
  | .array a, .array b => .ok (.array (a ++ b))
  | _, _ => arithmetic add left right

/-- The order of two values: integers exactly, strings by code points, and any other two numbers as
doubles. -/
def compare (op : BinaryOp) (left right : Value) : Except Error Ordering :=
  match left, right with
  | .integer a, .integer b => .ok (Ord.compare a.toInt b.toInt)
  | .string a, .string b => .ok (Ord.compare a b)
  | _, _ =>
    match left.number?, right.number? with
    | some a, some b =>
      match a.order? b with
      | some order => .ok order
      | none => .error (.arithmetic .undefinedComparison)
    | _, _ => .error (.type (.incomparable op left.kind right.kind))

/-- The result of a binary operator on two values. Logical operators take two booleans here; who
wants to leave the right one unevaluated decides that before. -/
def apply (op : BinaryOp) (left right : Value) : Except Error Value :=
  match op with
  | add => sum left right
  | subtract | multiply | divide | modulo => arithmetic op left right
  | equal => .ok (.boolean (left.equal right))
  | notEqual => .ok (.boolean (!left.equal right))
  | less => do return .boolean ((← compare op left right) == .lt)
  | lessEqual => do return .boolean ((← compare op left right) != .gt)
  | greater => do return .boolean ((← compare op left right) == .gt)
  | greaterEqual => do return .boolean ((← compare op left right) != .lt)
  | and => do
    let a ← requireBoolean op.symbol left
    let b ← requireBoolean op.symbol right
    return .boolean (a && b)
  | or => do
    let a ← requireBoolean op.symbol left
    let b ← requireBoolean op.symbol right
    return .boolean (a || b)

/-- Whether the left operand decides a logical operation alone. -/
def decides (op : BinaryOp) (left : Bool) : Bool :=
  (op = and) != left

end BinaryOp

/-- The result of a unary operator on a value. -/
def UnaryOp.apply (op : UnaryOp) (operand : Value) : Except Error Value :=
  match op, operand with
  | .negate, .integer n =>
    match Number.integer? (-n.toInt) with
    | some m => .ok (.integer m)
    | none => .error (.arithmetic (.negationOverflow n))
  | .negate, .number x => .ok (.number x.neg)
  | .not, .boolean flag => .ok (.boolean !flag)
  | _, _ => .error (.type (.notApplicable op operand.kind))

namespace Value

/-- The field of an object with this key; a field that is not there is null. -/
def property (target : Value) (name : String) : Except Error Value :=
  match target with
  | .object fields => .ok ((Table.find? name fields).getD .null)
  | _ => .error (.type (.noProperties name target.kind))

/-- The element at an index counted from zero. -/
def element {α : Type} (items : List α) (position : Int64) : Except Error α :=
  let outOfBounds := Error.indexOutOfBounds position items.length
  if position.toInt < 0 then .error outOfBounds
  else match items[position.toInt.toNat]? with
    | some item => .ok item
    | none => .error outOfBounds

/-- The element of an array or character of a string at an index, or the field of an object. -/
def index (target position : Value) : Except Error Value :=
  match target, position with
  | .array items, .integer n => element items n
  | .string text, .integer n => (element text.toList n).map fun c => .string c.toString
  | .object fields, .string key => .ok ((Table.find? key fields).getD .null)
  | _, _ => .error (.type (.notIndexable target.kind position.kind))

end Value

end Covenant
