import Covenant.Error
import Covenant.Host.Permission

/-!
# Programs

A program is a list of instructions for a stack machine, with the constants they refer to and the
places in the source text that they were made for.

Names at the top level are looked up by name; names declared in blocks are resolved beforehand to a
number of frames outward and a slot there.

## Main definitions

* `Op`: the instructions.
* `Program`: instructions, constants, source map and what they were made under.
* `Program.constant`, `Program.nameConstant`: constants by index.
* `Program.locationAt?`: the place that an instruction was made for.
-/

namespace Covenant

/-- An instruction. -/
inductive Op where
  /-- Pushes a constant. -/
  | constant (index : UInt32)
  /-- Pushes the value of a slot, `depth` frames outward. -/
  | loadLocal (depth slot : UInt16)
  /-- Stores the top of the stack in a slot and leaves it there. -/
  | storeLocal (depth slot : UInt16)
  /-- Pushes the value of a global name. -/
  | loadName (index : UInt32)
  /-- Gives a bound global name the value on top of the stack. -/
  | storeName (index : UInt32)
  /-- Binds a global name to the value on top of the stack. -/
  | defineName (index : UInt32)
  /-- Replaces two operands by the result. -/
  | binary (op : BinaryOp)
  /-- Replaces an operand by the result. -/
  | unary (op : UnaryOp)
  /-- Jumps if the top of the stack decides the operation alone, and otherwise drops it. -/
  | shortCircuit (op : BinaryOp) (target : UInt32)
  /-- Fails unless the top of the stack is a boolean. -/
  | requireBool (op : BinaryOp)
  /-- Replaces arguments by the result of a call. -/
  | call (name : UInt32) (argc : UInt16)
  /-- Replaces values by an array of them. -/
  | makeArray (count : UInt32)
  /-- Replaces keys and values by an object of them. -/
  | makeObject (count : UInt32)
  /-- Replaces an object by one of its fields. -/
  | getProperty (index : UInt32)
  /-- Replaces a target and an index by the element. -/
  | getIndex
  /-- Jumps. -/
  | jump (target : UInt32)
  /-- Drops a boolean and jumps if it is false. -/
  | jumpIfFalse (target : UInt32)
  /-- Drops the top of the stack. -/
  | pop
  /-- Opens a frame with empty slots. -/
  | enterScope (slots : UInt16)
  /-- Closes the innermost frame. -/
  | exitScope
  /-- Notes a loop, so that jumps can return to it. -/
  | loopEnter (continueTarget breakTarget : UInt32)
  /-- Forgets the innermost loop. -/
  | loopExit
  /-- Leaves the innermost loop. -/
  | break_
  /-- Goes on with the next round of the innermost loop. -/
  | continue_
  /-- A checkpoint. -/
  | tick
deriving Repr, DecidableEq

/-- The first instruction made for a statement, and where the statement stands. -/
structure SourceEntry where
  offset : UInt32
  location : Location
deriving Repr, DecidableEq

/-- A compiled script. -/
structure Program where
  name : String
  /-- The optimization level it was compiled at. -/
  level : UInt8
  /-- The permissions declared for its calls. -/
  declared : Permissions
  code : Array Op
  constants : Array Value
  /-- The beginnings of statements, in ascending order. -/
  sourceMap : List SourceEntry

namespace Program

/-- The constant at an index. -/
def constant (p : Program) (index : UInt32) : Except Error Value :=
  match p.constants[index.toNat]? with
  | some value => .ok value
  | none => .error (.compile (.constantOutOfRange index))

/-- The text of the constant at an index, which must be a string. -/
def nameConstant (p : Program) (index : UInt32) : Except Error String := do
  match ← p.constant index with
  | .string text => return text
  | _ => throw (.compile (.constantNotName index))

/-- Where the statement stands that the instruction at an offset was made for: that of the last
entry before the first one beyond the offset. -/
def locationAt? (p : Program) (offset : Nat) : Option Location :=
  (p.sourceMap.takeWhile fun entry => entry.offset.toNat ≤ offset).getLast?.map (·.location)

end Program

end Covenant
