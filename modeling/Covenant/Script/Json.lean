import Covenant.Script.Basic
import Covenant.Value.Json

/-!
# Scripts as JSON

An expression is a record of its construct's name and its content. Reading goes down the document,
so the nesting of the document bounds the depth of what is read.

A content that comes before its name is set aside until the name is known. All of it must then be
readable, also what is not needed in the end; in return the constructs inside it may be named by
number where they are given as pairs.

## Main definitions

* `Expr.toJson`, `Expr.ofJson?`.
* `Expr.tags`, `Expr.construct?`: the constructs by name, and the one that a document names.
* `Script.toJson`, `Script.ofJson?`, `Script.parseJson?`.
-/

namespace Covenant

/-! ### Operators and locations -/

/-- The name of an operator in documents. -/
def BinaryOp.tag : BinaryOp → String
  | or => "Or"
  | and => "And"
  | equal => "Equal"
  | notEqual => "NotEqual"
  | less => "LessThan"
  | lessEqual => "LessThanOrEqual"
  | greater => "GreaterThan"
  | greaterEqual => "GreaterThanOrEqual"
  | add => "Add"
  | subtract => "Subtract"
  | multiply => "Multiply"
  | divide => "Divide"
  | modulo => "Modulo"

/-- The name of an operator in documents. -/
def UnaryOp.tag : UnaryOp → String
  | negate => "Negate"
  | not => "Not"

/-- The document of an operator. -/
def BinaryOp.toJson (op : BinaryOp) : Json :=
  .string op.tag

/-- The document of an operator. -/
def UnaryOp.toJson (op : UnaryOp) : Json :=
  .string op.tag

/-- The operator of a document, which may have been set aside. -/
def BinaryOp.ofJson? (aside : Bool) (j : Json) : Option BinaryOp :=
  (j.plainChoice? aside).bind fun tag => all.find? fun op => op.tag = tag

/-- The operator of a document, which may have been set aside. -/
def UnaryOp.ofJson? (aside : Bool) (j : Json) : Option UnaryOp :=
  (j.plainChoice? aside).bind fun tag => [negate, not].find? fun op => op.tag = tag

/-- The word of 64 bits that a document writes. -/
def Json.word64? (j : Json) : Option UInt64 :=
  (j.natural? UInt64.size).map Nat.toUInt64

/-- The document of a location. -/
def Location.toJson (l : Location) : Json :=
  .object [
    ("file", .string l.file),
    ("start_line", .integer l.startLine.toNat),
    ("start_column", .integer l.startColumn.toNat),
    ("end_line", .integer l.endLine.toNat),
    ("end_column", .integer l.endColumn.toNat)]

/-- The location of a document. -/
def Location.ofJson? (j : Json) : Option Location := do
  let r ← j.record? ["file", "start_line", "start_column", "end_line", "end_column"]
  return {
    file := ← r.required? "file" Json.text?
    startLine := ← r.required? "start_line" Json.word64?
    startColumn := ← r.required? "start_column" Json.word64?
    endLine := ← r.required? "end_line" Json.word64?
    endColumn := ← r.required? "end_column" Json.word64? }

/-! ### Expressions -/

namespace Expr

/-- The document of a construct with content. -/
def tagged (tag : String) (content : Json) : Json :=
  .object [("type", .string tag), ("value", content)]

mutual

/-- The document of an expression. -/
def toJson : Expr → Json
  | literal value => tagged "Literal" value.toJson
  | ref name => tagged "VariableRef" (.string name)
  | binary left op right => tagged "BinaryOp" <| .object [
      ("left", left.toJson), ("op", op.toJson), ("right", right.toJson)]
  | unary op operand => tagged "UnaryOp" <| .object [
      ("op", op.toJson), ("operand", operand.toJson)]
  | call name args => tagged "Call" <| .object [
      ("name", .string name), ("args", .array (allToJson args))]
  | block items => tagged "Block" (.array (allToJson items))
  | cond test yes none => tagged "If" <| .object [
      ("condition", test.toJson), ("then_branch", yes.toJson), ("else_branch", .null)]
  | cond test yes (some no) => tagged "If" <| .object [
      ("condition", test.toJson), ("then_branch", yes.toJson), ("else_branch", no.toJson)]
  | loop none body => tagged "Loop" <| .object [("condition", .null), ("body", body.toJson)]
  | loop (some test) body => tagged "Loop" <| .object [
      ("condition", test.toJson), ("body", body.toJson)]
  | assign target value => tagged "Assignment" <| .object [
      ("target", .string target), ("value", value.toJson)]
  | declare name value => tagged "Declaration" <| .object [
      ("name", .string name), ("value", value.toJson)]
  | object entries => tagged "ObjectLiteral" (.array (entriesToJson entries))
  | array items => tagged "ArrayLiteral" (.array (allToJson items))
  | property target name => tagged "PropertyAccess" <| .object [
      ("object", target.toJson), ("name", .string name)]
  | index target position => tagged "IndexAccess" <| .object [
      ("array", target.toJson), ("index", position.toJson)]
  | jump .break_ => .object [("type", .string "Break")]
  | jump .continue_ => .object [("type", .string "Continue")]

/-- The documents of expressions. -/
def allToJson : List Expr → List Json
  | [] => []
  | e :: rest => e.toJson :: allToJson rest

/-- The documents of entries, each a pair. -/
def entriesToJson : List (String × Expr) → List Json
  | [] => []
  | (key, e) :: rest => .array [.string key, e.toJson] :: entriesToJson rest

end

/-- The names of the constructs, in the order by which they are numbered. -/
def tags : List String :=
  ["Literal", "VariableRef", "BinaryOp", "UnaryOp", "Call", "Block", "If", "Loop", "Assignment",
   "Declaration", "ObjectLiteral", "ArrayLiteral", "PropertyAccess", "IndexAccess", "Break",
   "Continue"]

/-- A construct by its name and content. -/
structure Construct where
  tag : String
  /-- The content, if any is given. -/
  content : Option Json
  /-- Whether the content was set aside before it is read. -/
  aside : Bool

/-- The name that comes first in a pair: a text, or a number in what was set aside. -/
def pairTag? (aside : Bool) : Json → Option String
  | .string tag => some tag
  | .integer n => if aside ∧ 0 ≤ n then tags[n.toNat]? else none
  | _ => none

/-- Whether the content comes before the name. -/
def contentFirst (members : List (String × Json)) : Bool :=
  (members.find? fun member => member.1 = "type" || member.1 = "value").any fun member =>
    member.1 = "value"

/-- The construct of a document: members `type` and `value`, each at most once and with others
ignored, or an array of the two. -/
def construct? (aside : Bool) : Json → Option Construct
  | .object members =>
    let names := members.filter fun member => member.1 = "type"
    let contents := members.filter fun member => member.1 = "value"
    match names, contents with
    | [(_, name)], [] => (name.plainChoice? aside).map (⟨·, none, aside⟩)
    | [(_, name)], [(_, content)] =>
      let late := !aside && contentFirst members
      if late && !content.readable then none
      else (name.plainChoice? aside).map (⟨·, some content, aside || late⟩)
    | _, _ => none
  | .array [name, content] => (pairTag? aside name).map (⟨·, some content, aside⟩)
  | _ => none

/-- The expression of a document whose nesting is at most the allowance; it may be part of one that
was set aside. The content of a construct with several parts gives them by name. -/
def read? : Nat → Bool → Json → Option Expr
  | 0, _, _ => none
  | n + 1, inherited, j => do
    let ⟨tag, content, aside⟩ ← construct? inherited j
    match tag, content with
    | "Literal", some content => return literal (← Value.ofJson? content)
    | "VariableRef", some content => return ref (← content.text?)
    | "BinaryOp", some content =>
      let r ← content.members? ["left", "op", "right"]
      return binary (← r.required? "left" (read? n aside))
        (← r.required? "op" (BinaryOp.ofJson? aside)) (← r.required? "right" (read? n aside))
    | "UnaryOp", some content =>
      let r ← content.members? ["op", "operand"]
      return unary (← r.required? "op" (UnaryOp.ofJson? aside))
        (← r.required? "operand" (read? n aside))
    | "Call", some content =>
      let r ← content.members? ["name", "args"]
      return call (← r.required? "name" Json.text?)
        (← r.required? "args" (Json.list? (read? n aside)))
    | "Block", some content => return block (← content.list? (read? n aside))
    | "If", some content =>
      let r ← content.members? ["condition", "then_branch", "else_branch"]
      return cond (← r.required? "condition" (read? n aside))
        (← r.required? "then_branch" (read? n aside)) (← r.optional? "else_branch" (read? n aside))
    | "Loop", some content =>
      let r ← content.members? ["condition", "body"]
      return loop (← r.optional? "condition" (read? n aside)) (← r.required? "body" (read? n aside))
    | "Assignment", some content =>
      let r ← content.members? ["target", "value"]
      return assign (← r.required? "target" Json.text?) (← r.required? "value" (read? n aside))
    | "Declaration", some content =>
      let r ← content.members? ["name", "value"]
      return declare (← r.required? "name" Json.text?) (← r.required? "value" (read? n aside))
    | "ObjectLiteral", some content =>
      let entry? : Json → Option (String × Expr) := fun
        | .array [key, e] => do return (← key.text?, ← read? n aside e)
        | _ => none
      return object (← content.list? entry?)
    | "ArrayLiteral", some content => return array (← content.list? (read? n aside))
    | "PropertyAccess", some content =>
      let r ← content.members? ["object", "name"]
      return property (← r.required? "object" (read? n aside)) (← r.required? "name" Json.text?)
    | "IndexAccess", some content =>
      let r ← content.members? ["array", "index"]
      return index (← r.required? "array" (read? n aside)) (← r.required? "index" (read? n aside))
    | "Break", none | "Break", some .null => return jump .break_
    | "Continue", none | "Continue", some .null => return jump .continue_
    | _, _ => none

/-- The expression of a document. -/
def ofJson? (j : Json) : Option Expr :=
  read? j.depth false j

end Expr

/-! ### Scripts -/

/-- The document of a statement. -/
def Statement.toJson (s : Statement) : Json :=
  .object [
    ("expression", s.expression.toJson),
    ("location", (s.location.map Location.toJson).getD .null)]

/-- The statement of a document. -/
def Statement.ofJson? (j : Json) : Option Statement := do
  let r ← j.record? ["expression", "location"]
  return {
    expression := ← r.required? "expression" Expr.ofJson?
    location := ← r.optional? "location" Location.ofJson? }

/-- A table of texts in a document; of members with one key the last counts. -/
def Json.textTable? : Json → Option (Table String)
  | .object members => do
    let entries ← members.mapM fun (key, j) => do return (key, ← j.text?)
    return Table.ofList entries
  | _ => none

namespace Script

/-- The document of a script. -/
def toJson (script : Script) : Json :=
  .object [
    ("name", .string script.name),
    ("statements", .array (script.statements.map Statement.toJson)),
    ("source", .string script.source),
    ("metadata", .object (script.metadata.map fun (key, text) => (key, .string text)))]

/-- The script of a document. -/
def ofJson? (j : Json) : Option Script := do
  let r ← j.record? ["name", "statements", "source", "metadata"]
  return {
    name := ← r.required? "name" Json.text?
    statements := ← r.required? "statements" (Json.list? Statement.ofJson?)
    source := ← r.required? "source" Json.text?
    metadata := ← r.required? "metadata" Json.textTable? }

/-- The script that a JSON text writes. -/
def parseJson? (text : String) : Option Script :=
  (Json.parse? text).bind ofJson?

end Script

end Covenant
