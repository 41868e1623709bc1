import Covenant.Script.Expr

/-!
# Scripts

A script is a list of statements with a name, the text it was read from and free-form notes. A
statement is an expression together with where it stands in the text.

## Main definitions

* `Statement`, `Script`.
* `Script.depth`: the depth of its deepest statement.
* `Script.calls`: every call in it, in the order of the text.
-/

namespace Covenant

/-- An expression and where it stands; an expression made otherwise has no location. -/
structure Statement where
  expression : Expr
  location : Option Location

/-- What is read from a text and then run or compiled. -/
structure Script where
  name : String
  statements : List Statement
  /-- The text it was read from. -/
  source : String
  /-- Notes by key, such as the template it was made from. -/
  metadata : Table String

namespace Script

/-- The depth of the deepest statement, zero if there is none. -/
def depth (script : Script) : Nat :=
  script.statements.foldl (fun deepest s => max deepest s.expression.depth) 0

/-- The name and arguments of every call, in the order of the text. -/
def calls (script : Script) : List (String × List Expr) :=
  script.statements.flatMap fun s => s.expression.walk.filterMap fun
    | .call name args => some (name, args)
    | _ => none

end Script

end Covenant
