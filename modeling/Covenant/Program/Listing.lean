import Covenant.Program.Basic
import Covenant.Value.Render

/-!
# Listings

The readable form of a program: its name and constants, then one line for each instruction, with the
places in the source text between them.

## Main definitions

* `Op.describe`: the line of an instruction.
* `Program.listing`: the whole text.
-/

namespace Covenant

/-- A number, filled up to a width with a character on the left. -/
def padLeft (fill : Char) (width n : Nat) : String :=
  let digits := Nat.toDigits 10 n
  String.ofList (List.replicate (width - digits.length) fill ++ digits)

/-- An offset in four digits or more. -/
def offsetText (n : Nat) : String :=
  padLeft '0' 4 n

/-- The source form of a constant, or its number if there is none. -/
def Program.describeConstant (p : Program) (index : UInt32) : String :=
  match p.constants[index.toNat]? with
  | some value => value.render
  | none => "#" ++ toString index.toNat

/-- The readable form of an instruction. -/
def Op.describe (p : Program) : Op → String
  | .constant index => "CONST " ++ p.describeConstant index
  | .loadLocal depth slot => s!"LOAD_LOCAL {depth.toNat}:{slot.toNat}"
  | .storeLocal depth slot => s!"STORE_LOCAL {depth.toNat}:{slot.toNat}"
  | .loadName index => "LOAD_NAME " ++ p.describeConstant index
  | .storeName index => "STORE_NAME " ++ p.describeConstant index
  | .defineName index => "DEFINE_NAME " ++ p.describeConstant index
  | .binary op => "BINARY " ++ op.symbol
  | .unary op => "UNARY " ++ op.symbol
  | .shortCircuit op target => "SHORT_CIRCUIT " ++ op.symbol ++ " -> " ++ offsetText target.toNat
  | .requireBool op => "REQUIRE_BOOL " ++ op.symbol
  | .call name argc => s!"CALL {p.describeConstant name} {argc.toNat}"
  | .makeArray count => s!"MAKE_ARRAY {count.toNat}"
  | .makeObject count => s!"MAKE_OBJECT {count.toNat}"
  | .getProperty index => "GET_PROPERTY " ++ p.describeConstant index
  | .getIndex => "GET_INDEX"
  | .jump target => "JUMP " ++ offsetText target.toNat
  | .jumpIfFalse target => "JUMP_IF_FALSE " ++ offsetText target.toNat
  | .pop => "POP"
  | .enterScope slots => s!"ENTER_SCOPE {slots.toNat}"
  | .exitScope => "EXIT_SCOPE"
  | .loopEnter continueTarget breakTarget =>
    "LOOP_ENTER " ++ offsetText continueTarget.toNat ++ " " ++ offsetText breakTarget.toNat
  | .loopExit => "LOOP_EXIT"
  | .break_ => "BREAK"
  | .continue_ => "CONTINUE"
  | .tick => "TICK"

namespace Program

/-- The lines of instructions from an offset on. In front of each stand the places of the next
entries of the source map, as far as their offsets are its own. -/
def codeLines (p : Program) : Nat → List SourceEntry → List Op → List String
  | _, _, [] => []
  | offset, entries, op :: rest =>
    let (here, later) := entries.span fun entry => entry.offset.toNat = offset
    here.map (fun entry => "; " ++ entry.location.describe) ++
      (offsetText offset ++ "  " ++ op.describe p) :: codeLines p (offset + 1) later rest

/-- The lines of the constants. -/
def constantLines (p : Program) : List String :=
  p.constants.toList.zipIdx.map fun (value, i) =>
    "; const " ++ padLeft ' ' 3 i ++ " = " ++ value.render

/-- The readable form of a program, each line with its end. -/
def listing (p : Program) : String :=
  let lines :=
    ("; program " ++ p.name) :: p.constantLines ++ p.codeLines 0 p.sourceMap p.code.toList
  String.join (lines.map (· ++ "\n"))

end Program

end Covenant
