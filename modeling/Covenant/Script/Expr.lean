import Covenant.Error

/-!
# Expressions

The trees that scripts are made of. Every construct of the language is an expression with a value;
a script is a list of them.

Trees may be as deep as memory allows, so the traversals keep a list of pending nodes instead of
descending. The number of nodes bounds the number of rounds.

## Main definitions

* `Expr`: the constructs.
* `Expr.children`: the direct parts, in order of evaluation.
* `Expr.size`: the number of nodes.
* `Expr.walk`: all nodes, each before its parts.
* `Expr.depth`: the number of nodes on a longest path.
-/

namespace Covenant

/-- A construct of the language. -/
inductive Expr where
  /-- A value. -/
  | literal (value : Value)
  /-- The value of a name. -/
  | ref (name : String)
  /-- Two operands and an operator. -/
  | binary (left : Expr) (op : BinaryOp) (right : Expr)
  /-- An operator and its operand. -/
  | unary (op : UnaryOp) (operand : Expr)
  /-- A call of a named function. -/
  | call (name : String) (args : List Expr)
  /-- Items evaluated in turn in a scope of their own. -/
  | block (items : List Expr)
  /-- A choice; without the second branch a false test gives null. -/
  | cond (test yes : Expr) (no : Option Expr)
  /-- A repetition, for as long as the test, if there is one, holds. -/
  | loop (test : Option Expr) (body : Expr)
  /-- A new value for a name. -/
  | assign (target : String) (value : Expr)
  /-- A new name in the current scope. -/
  | declare (name : String) (value : Expr)
  /-- An object, with keys in the order written. -/
  | object (entries : List (String × Expr))
  /-- An array. -/
  | array (items : List Expr)
  /-- A field of an object, by a fixed key. -/
  | property (target : Expr) (name : String)
  /-- An element of an array, string or object. -/
  | index (target position : Expr)
  /-- A jump out of the body of the innermost loop. -/
  | jump (jump : Jump)
deriving Inhabited

namespace Expr

/-- The value of a literal. -/
def literal? : Expr → Option Value
  | literal value => some value
  | _ => none

/-- The direct parts, in order of evaluation. -/
def children : Expr → List Expr
  | literal _ | ref _ | jump _ => []
  | binary left _ right => [left, right]
  | unary _ operand => [operand]
  | call _ args => args
  | block items => items
  | cond test yes no => test :: yes :: no.toList
  | loop test body => test.toList ++ [body]
  | assign _ value => [value]
  | declare _ value => [value]
  | object entries => entries.map Prod.snd
  | array items => items
  | property target _ => [target]
  | index target position => [target, position]

mutual

/-- The number of nodes. -/
def size : Expr → Nat
  | literal _ | ref _ | jump _ => 1
  | binary left _ right => left.size + right.size + 1
  | unary _ operand => operand.size + 1
  | call _ args => sizeAll args + 1
  | block items => sizeAll items + 1
  | cond test yes none => test.size + yes.size + 1
  | cond test yes (some no) => test.size + yes.size + no.size + 1
  | loop none body => body.size + 1
  | loop (some test) body => test.size + body.size + 1
  | assign _ value => value.size + 1
  | declare _ value => value.size + 1
  | object entries => sizeEntries entries + 1
  | array items => sizeAll items + 1
  | property target _ => target.size + 1
  | index target position => target.size + position.size + 1

/-- The number of nodes in all of the trees. -/
def sizeAll : List Expr → Nat
  | [] => 0
  | e :: rest => e.size + sizeAll rest

/-- The number of nodes in the trees of all entries. -/
def sizeEntries : List (String × Expr) → Nat
  | [] => 0
  | (_, e) :: rest => e.size + sizeEntries rest

end

/-- The nodes of the pending trees, behind those already visited, the last of which comes first.
Each round visits one node. -/
def walkFrom : Nat → List Expr → List Expr → List Expr
  | _, [], visited => visited.reverse
  | 0, _, visited => visited.reverse
  | rounds + 1, e :: pending, visited =>
    walkFrom rounds (e.children ++ pending) (e :: visited)

/-- All nodes of a tree, each before its parts and the parts in order of evaluation. -/
def walk (e : Expr) : List Expr :=
  walkFrom e.size [e] []

/-- The greatest level among the nodes of the pending trees, whose roots carry their level. -/
def depthFrom : Nat → List (Expr × Nat) → Nat → Nat
  | _, [], deepest => deepest
  | 0, _, deepest => deepest
  | rounds + 1, (e, level) :: pending, deepest =>
    depthFrom rounds (e.children.map (·, level + 1) ++ pending) (max deepest level)

/-- The number of nodes on a longest path from the root to a leaf. -/
def depth (e : Expr) : Nat :=
  depthFrom e.size [(e, 1)] 0

end Expr

end Covenant
