import Covenant.Program.Basic
import Covenant.Script.Json

/-!
# Programs as JSON

The canonical text of a program is its compact document, with members in a fixed order. An
instruction is a choice: its name alone, or its name with its operands.

## Main definitions

* `Op.toJson`, `Op.ofJson?`.
* `Program.toJson`, `Program.ofJson?`, `Program.text`, `Program.parse?`.
-/

namespace Covenant

/-- The word of 32 bits that a document writes. -/
def Json.word32? (j : Json) : Option UInt32 :=
  (j.natural? UInt32.size).map Nat.toUInt32

/-- The word of 16 bits that a document writes. -/
def Json.word16? (j : Json) : Option UInt16 :=
  (j.natural? UInt16.size).map Nat.toUInt16

/-- The word of 8 bits that a document writes. -/
def Json.word8? (j : Json) : Option UInt8 :=
  (j.natural? UInt8.size).map Nat.toUInt8

namespace Op

/-- An instruction with one operand. -/
def single (name : String) (operand : Json) : Json :=
  .object [(name, operand)]

/-- The document of a word of 32 bits. -/
def word (n : UInt32) : Json :=
  .integer n.toNat

/-- The document of a word of 16 bits. -/
def short (n : UInt16) : Json :=
  .integer n.toNat

/-- The document of an instruction. -/
def toJson : Op → Json
  | constant index => single "constant" (word index)
  | loadLocal depth slot =>
    single "load_local" (.object [("depth", short depth), ("slot", short slot)])
  | storeLocal depth slot =>
    single "store_local" (.object [("depth", short depth), ("slot", short slot)])
  | loadName index => single "load_name" (word index)
  | storeName index => single "store_name" (word index)
  | defineName index => single "define_name" (word index)
  | binary op => single "binary" op.toJson
  | unary op => single "unary" op.toJson
  | shortCircuit op target =>
    single "short_circuit" (.object [("op", op.toJson), ("target", word target)])
  | requireBool op => single "require_bool" op.toJson
  | call name argc => single "call" (.object [("name", word name), ("argc", short argc)])
  | makeArray count => single "make_array" (word count)
  | makeObject count => single "make_object" (word count)
  | getProperty index => single "get_property" (word index)
  | getIndex => .string "get_index"
  | jump target => single "jump" (word target)
  | jumpIfFalse target => single "jump_if_false" (word target)
  | pop => .string "pop"
  | enterScope slots => single "enter_scope" (short slots)
  | exitScope => .string "exit_scope"
  | loopEnter continueTarget breakTarget =>
    single "loop_enter" (.object [
      ("continue_target", word continueTarget), ("break_target", word breakTarget)])
  | loopExit => .string "loop_exit"
  | break_ => .string "break"
  | continue_ => .string "continue"
  | tick => .string "tick"

/-- An instruction without operands, by name. -/
def plain? : String → Option Op
  | "get_index" => some getIndex
  | "pop" => some pop
  | "exit_scope" => some exitScope
  | "loop_exit" => some loopExit
  | "break" => some break_
  | "continue" => some continue_
  | "tick" => some tick
  | _ => none

/-- An instruction with operands, by name. -/
def withOperands? (name : String) (operands : Json) : Option Op :=
  match name with
  | "constant" => operands.word32?.map constant
  | "load_local" => do
    let r ← operands.record? ["depth", "slot"]
    return loadLocal (← r.required? "depth" Json.word16?) (← r.required? "slot" Json.word16?)
  | "store_local" => do
    let r ← operands.record? ["depth", "slot"]
    return storeLocal (← r.required? "depth" Json.word16?) (← r.required? "slot" Json.word16?)
  | "load_name" => operands.word32?.map loadName
  | "store_name" => operands.word32?.map storeName
  | "define_name" => operands.word32?.map defineName
  | "binary" => (BinaryOp.ofJson? false operands).map binary
  | "unary" => (UnaryOp.ofJson? false operands).map unary
  | "short_circuit" => do
    let r ← operands.record? ["op", "target"]
    return shortCircuit (← r.required? "op" (BinaryOp.ofJson? false))
      (← r.required? "target" Json.word32?)
  | "require_bool" => (BinaryOp.ofJson? false operands).map requireBool
  | "call" => do
    let r ← operands.record? ["name", "argc"]
    return call (← r.required? "name" Json.word32?) (← r.required? "argc" Json.word16?)
  | "make_array" => operands.word32?.map makeArray
  | "make_object" => operands.word32?.map makeObject
  | "get_property" => operands.word32?.map getProperty
  | "jump" => operands.word32?.map jump
  | "jump_if_false" => operands.word32?.map jumpIfFalse
  | "enter_scope" => operands.word16?.map enterScope
  | "loop_enter" => do
    let r ← operands.record? ["continue_target", "break_target"]
    return loopEnter (← r.required? "continue_target" Json.word32?)
      (← r.required? "break_target" Json.word32?)
  | _ => none

/-- The instruction of a document. -/
def ofJson? (j : Json) : Option Op :=
  match j.choice? with
  | some (name, none) => plain? name
  | some (name, some .null) => plain? name
  | some (name, some operands) => withOperands? name operands
  | none => none

end Op

/-- The document of a set of permissions. -/
def Permissions.toJson (p : Permissions) : Json :=
  .array (p.names.map .string)

/-- The set of permissions of a document. -/
def Permissions.ofJson? (j : Json) : Option Permissions :=
  (j.list? Json.text?).map ofList

/-- The document of an entry of a source map. -/
def SourceEntry.toJson (entry : SourceEntry) : Json :=
  .object [("offset", .integer entry.offset.toNat), ("location", entry.location.toJson)]

/-- The entry of a source map of a document. -/
def SourceEntry.ofJson? (j : Json) : Option SourceEntry := do
  let r ← j.record? ["offset", "location"]
  return {
    offset := ← r.required? "offset" Json.word32?
    location := ← r.required? "location" Location.ofJson? }

/-- The optimization level that is used if none is given. -/
def defaultLevel : UInt8 := 1

/-- The document of compiler settings. -/
def levelToJson (level : UInt8) : Json :=
  .object [("optimization_level", .integer level.toNat)]

/-- The optimization level in a document of compiler settings. -/
def levelOfJson? (j : Json) : Option UInt8 := do
  let r ← j.record? ["optimization_level"]
  r.defaulted? "optimization_level" defaultLevel Json.word8?

namespace Program

/-- The document of a program. -/
def toJson (p : Program) : Json :=
  .object [
    ("name", .string p.name),
    ("config", levelToJson p.level),
    ("capabilities", p.declared.toJson),
    ("code", .array (p.code.toList.map Op.toJson)),
    ("constants", .array (p.constants.toList.map Value.toJson)),
    ("source_map", .array (p.sourceMap.map SourceEntry.toJson))]

/-- The program of a document. -/
def ofJson? (j : Json) : Option Program := do
  let r ← j.record? ["name", "config", "capabilities", "code", "constants", "source_map"]
  return {
    name := ← r.required? "name" Json.text?
    level := ← r.required? "config" levelOfJson?
    declared := ← r.required? "capabilities" Permissions.ofJson?
    code := (← r.required? "code" (Json.list? Op.ofJson?)).toArray
    constants := (← r.required? "constants" (Json.list? Value.ofJson?)).toArray
    sourceMap := ← r.required? "source_map" (Json.list? SourceEntry.ofJson?) }

/-- The canonical text of a program. -/
def text (p : Program) : String :=
  p.toJson.compact

/-- The program that a text writes. -/
def parse? (text : String) : Option Program :=
  (Json.parse? text).bind ofJson?

end Program

end Covenant
