/-!
# Operators

The binary and unary operators of the language, their spelling and their grouping. Binary operators
fall into six groups by how tightly they bind; within a group they associate to the left.

## Main definitions

* `BinaryOp`, `UnaryOp` with `symbol`.
* `BinaryOp.level`: the group, from zero for the loosest.
* `BinaryOp.isLogical`: whether the right operand may be left unevaluated.
-/

namespace Covenant

/-- Binary operators, from the loosest group to the tightest. -/
inductive BinaryOp where
  | or
  | and
  | equal
  | notEqual
  | less
  | lessEqual
  | greater
  | greaterEqual
  | add
  | subtract
  | multiply
  | divide
  | modulo
deriving Repr, DecidableEq

/-- Unary operators. -/
inductive UnaryOp where
  | negate
  | not
deriving Repr, DecidableEq

namespace BinaryOp

/-- The spelling of an operator in source text. -/
def symbol : BinaryOp → String
  | or => "||"
  | and => "&&"
  | equal => "=="
  | notEqual => "!="
  | less => "<"
  | lessEqual => "<="
  | greater => ">"
  | greaterEqual => ">="
  | add => "+"
  | subtract => "-"
  | multiply => "*"
  | divide => "/"
  | modulo => "%"

/-- The group of an operator; a higher one binds tighter. -/
def level : BinaryOp → Nat
  | or => 0
  | and => 1
  | equal | notEqual => 2
  | less | lessEqual | greater | greaterEqual => 3
  | add | subtract => 4
  | multiply | divide | modulo => 5

/-- The number of groups. -/
def levels : Nat := 6

theorem level_lt (op : BinaryOp) : op.level < levels := by
  cases op <;> decide

theorem level_le (op : BinaryOp) : op.level ≤ levels :=
  Nat.le_of_lt op.level_lt

/-- Whether the left operand may decide the result alone. -/
def isLogical : BinaryOp → Bool
  | or | and => true
  | _ => false

/-- All operators, from the loosest group to the tightest. -/
def all : List BinaryOp :=
  [or, and, equal, notEqual, less, lessEqual, greater, greaterEqual,
   add, subtract, multiply, divide, modulo]

end BinaryOp

/-- The spelling of an operator in source text. -/
def UnaryOp.symbol : UnaryOp → String
  | negate => "-"
  | not => "!"

end Covenant
