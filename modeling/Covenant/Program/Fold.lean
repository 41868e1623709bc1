import Covenant.Operator.Apply
import Covenant.Script.Basic

/-!
# Constant folding

Expressions are simplified from the leaves upward. An operation on literals becomes its result, a
choice whose test is known becomes the branch taken, and a repetition whose test is false becomes
null. An operation that fails is left as it stands, so that it fails when the program runs.

## Main definitions

* `Expr.fold`, `Script.fold`.
-/

namespace Covenant

namespace Expr

/-- The flag of a boolean literal. -/
def flag? (e : Expr) : Option Bool :=
  e.literal?.bind Value.boolean?

/-- A binary operation on folded operands. -/
def foldBinary (left : Expr) (op : BinaryOp) (right : Expr) : Expr :=
  let kept := binary left op right
  match left.literal? with
  | none => kept
  | some a =>
    let folded :=
      match right.literal? with
      | some b =>
        match op.apply a b with
        | .ok value => literal value
        | .error _ => kept
      | none => kept
    if op.isLogical then
      match a.boolean? with
      | some flag => if op.decides flag then literal (.boolean flag) else folded
      | none => kept
    else folded

/-- A unary operation on a folded operand. -/
def foldUnary (op : UnaryOp) (operand : Expr) : Expr :=
  match operand.literal? with
  | some a =>
    match op.apply a with
    | .ok value => literal value
    | .error _ => unary op operand
  | none => unary op operand

/-- An array of folded items, which is a value if all of them are. -/
def foldArray (items : List Expr) : Expr :=
  match items.mapM literal? with
  | some values => literal (.array values)
  | none => array items

/-- An object of folded entries, which is a value if all of them are. -/
def foldObject (entries : List (String × Expr)) : Expr :=
  match entries.mapM fun (key, e) => e.literal?.map (key, ·) with
  | some fields => literal (Value.ofFields fields)
  | none => object entries

/-- A choice between folded branches, which is the branch taken if the folded test is known. -/
def foldCond (test yes : Expr) (no : Option Expr) : Expr :=
  match test.flag? with
  | some true => yes
  | some false => no.getD (literal .null)
  | none => cond test yes no

mutual

/-- The folded form of an expression. -/
def fold : Expr → Expr
  | literal value => literal value
  | ref name => ref name
  | binary left op right => foldBinary left.fold op right.fold
  | unary op operand => foldUnary op operand.fold
  | call name args => call name (foldAll [] args)
  | block items => block (foldAll [] items)
  | cond test yes none => foldCond test.fold yes.fold none
  | cond test yes (some no) => foldCond test.fold yes.fold (some no.fold)
  | loop none body => loop none body.fold
  | loop (some test) body =>
    let test := test.fold
    if test.flag? = some false then literal .null else loop (some test) body.fold
  | assign target value => assign target value.fold
  | declare name value => declare name value.fold
  | object entries => foldObject (foldEntries [] entries)
  | array items => foldArray (foldAll [] items)
  | property target name => property target.fold name
  | index target position => index target.fold position.fold
  | jump j => jump j

/-- The folded forms of expressions, behind those already folded, the last of which comes first. -/
def foldAll (done : List Expr) : List Expr → List Expr
  | [] => done.reverse
  | e :: rest => foldAll (e.fold :: done) rest

/-- The folded forms of entries, behind those already folded, the last of which comes first. -/
def foldEntries (done : List (String × Expr)) : List (String × Expr) → List (String × Expr)
  | [] => done.reverse
  | (key, e) :: rest => foldEntries ((key, e.fold) :: done) rest

end

end Expr

/-- A script with every statement folded. -/
def Script.fold (script : Script) : Script :=
  { script with
    statements := script.statements.map fun s => { s with expression := s.expression.fold } }

end Covenant
