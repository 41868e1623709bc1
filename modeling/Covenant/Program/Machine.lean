import Covenant.Operator.Apply
import Covenant.Program.Basic
import Covenant.Run.State
import Covenant.Scope

/-!
# The machine

A stack machine that executes programs, whether compiled from a script or read from a text; an
instruction that does not find what it needs is an error. Operators, limits and calls are those of
the interpreter.

Each executed instruction is charged one step, so a run with a step limit ends. A run without one
may go on forever, so execution takes an allowance for the number of instructions.

## Main definitions

* `Machine`: offset, stack, frames, globals, open loops and the ledger.
* `Machine.perform`: the effect of one instruction.
* `Machine.execute`: instructions from the current offset on, until there is none.
* `runProgram`: a program with bindings.
-/

namespace Covenant

/-- What is noted about an open loop. -/
structure LoopRecord where
  /-- The size of the stack at its beginning. -/
  stackSize : Nat
  /-- The number of frames at its beginning. -/
  frameCount : Nat
  continueTarget : Nat
  breakTarget : Nat
deriving Repr, DecidableEq

/-- The state of the machine. -/
structure Machine (σ : Type) where
  /-- The offset of the next instruction. -/
  pc : Nat
  /-- The stack, its top first. -/
  stack : List Value
  /-- The slots of the open frames, innermost first. -/
  frames : List (Array Value)
  globals : Frame Value
  /-- The open loops, innermost first. -/
  loops : List LoopRecord
  ledger : Ledger σ

/-- The ways to leave an execution without a value. -/
inductive Halt where
  | fail (error : Error)
  /-- The allowance of instructions is used up. -/
  | unfinished
deriving DecidableEq

/-- A computation on the machine; a failure keeps the machine reached. -/
abbrev Exec (σ : Type) := EStateM Error (Machine σ)

namespace Machine

variable {ι σ : Type}

/-- A computation on the ledger as part of an execution. -/
def ofRun {α : Type} (run : Run σ α) : Exec σ α :=
  fun ⟨pc, stack, frames, globals, loops, ledger⟩ =>
    match run ledger with
    | .ok a ledger => .ok a ⟨pc, stack, frames, globals, loops, ledger⟩
    | .error e ledger => .error e ⟨pc, stack, frames, globals, loops, ledger⟩

/-- The result of a computation without effects. -/
def ofExcept {α : Type} (result : Except Error α) : Exec σ α :=
  fun machine =>
    match result with
    | .ok a => .ok a machine
    | .error e => .error e machine

/-- Fails because the program is malformed. -/
def malformed {α : Type} (fault : CompileFault) : Exec σ α :=
  fun machine => .error (.compile fault) machine

/-- Puts a value on top of the stack. -/
def push (value : Value) : Exec σ Unit :=
  fun ⟨pc, stack, frames, globals, loops, ledger⟩ =>
    .ok () ⟨pc, value :: stack, frames, globals, loops, ledger⟩

/-- Takes the value on top of the stack. -/
def pop : Exec σ Value :=
  fun ⟨pc, stack, frames, globals, loops, ledger⟩ =>
    match stack with
    | value :: rest => .ok value ⟨pc, rest, frames, globals, loops, ledger⟩
    | [] => .error (.compile .stackUnderflow) ⟨pc, [], frames, globals, loops, ledger⟩

/-- The value on top of the stack, which stays there. -/
def peek : Exec σ Value :=
  fun machine =>
    match machine.stack with
    | value :: _ => .ok value machine
    | [] => .error (.compile .stackUnderflow) machine

/-- Moves values from the stack to a list, so that the deepest comes first. -/
def takeStack : Nat → List Value → List Value → Option (List Value × List Value)
  | 0, taken, stack => some (taken, stack)
  | _ + 1, _, [] => none
  | n + 1, taken, value :: rest => takeStack n (value :: taken) rest

/-- Takes several values from the stack, in the order in which they were put there. -/
def popMany (count : Nat) : Exec σ (List Value) :=
  fun ⟨pc, stack, frames, globals, loops, ledger⟩ =>
    match takeStack count [] stack with
    | some (values, rest) => .ok values ⟨pc, rest, frames, globals, loops, ledger⟩
    | none => .error (.compile .stackUnderflow) ⟨pc, stack, frames, globals, loops, ledger⟩

/-- The next instruction is the one at an offset. -/
def jumpTo (target : Nat) : Exec σ Unit :=
  fun ⟨_, stack, frames, globals, loops, ledger⟩ =>
    .ok () ⟨target, stack, frames, globals, loops, ledger⟩

/-- The value of a slot. -/
def readSlot (depth slot : Nat) : Exec σ Value := do
  match (← get).frames[depth]? with
  | none => malformed .frameOutOfRange
  | some frame =>
    match frame[slot]? with
    | none => malformed .slotOutOfRange
    | some value => return value

/-- Gives a slot a new value. -/
def writeSlot (depth slot : Nat) (value : Value) : Exec σ Unit :=
  fun ⟨pc, stack, frames, globals, loops, ledger⟩ =>
    match frames[depth]? with
    | none => .error (.compile .frameOutOfRange) ⟨pc, stack, frames, globals, loops, ledger⟩
    | some frame =>
      if slot < frame.size then
        let frames := frames.modify depth fun frame => frame.setIfInBounds slot value
        .ok () ⟨pc, stack, frames, globals, loops, ledger⟩
      else .error (.compile .slotOutOfRange) ⟨pc, stack, frames, globals, loops, ledger⟩

/-- The value of a global name. -/
def readGlobal (name : String) : Exec σ Value := do
  match (← get).globals[name]? with
  | some value => return value
  | none => throw (.notDefined name)

/-- Binds a global name. -/
def defineGlobal (name : String) (value : Value) : Exec σ Unit :=
  fun ⟨pc, stack, frames, globals, loops, ledger⟩ =>
    .ok () ⟨pc, stack, frames, globals.insert name value, loops, ledger⟩

/-- Gives a bound global name a new value. -/
def writeGlobal (name : String) (value : Value) : Exec σ Unit := do
  if (← get).globals.contains name then defineGlobal name value
  else throw (.notDefined name)

/-- Opens a frame with empty slots. -/
def openFrame (slots : Nat) : Exec σ Unit :=
  fun ⟨pc, stack, frames, globals, loops, ledger⟩ =>
    .ok () ⟨pc, stack, Array.replicate slots .null :: frames, globals, loops, ledger⟩

/-- Closes the innermost frame. -/
def closeFrame : Exec σ Unit :=
  fun ⟨pc, stack, frames, globals, loops, ledger⟩ =>
    match frames with
    | _ :: rest => .ok () ⟨pc, stack, rest, globals, loops, ledger⟩
    | [] => .error (.compile .scopeUnderflow) ⟨pc, stack, [], globals, loops, ledger⟩

/-- Notes a loop that begins here. -/
def openLoop (continueTarget breakTarget : Nat) : Exec σ Unit :=
  fun ⟨pc, stack, frames, globals, loops, ledger⟩ =>
    let record := ⟨stack.length, frames.length, continueTarget, breakTarget⟩
    .ok () ⟨pc, stack, frames, globals, record :: loops, ledger⟩

/-- Forgets the innermost loop. -/
def closeLoop : Exec σ Unit :=
  fun ⟨pc, stack, frames, globals, loops, ledger⟩ =>
    match loops with
    | _ :: rest => .ok () ⟨pc, stack, frames, globals, rest, ledger⟩
    | [] => .error (.compile .loopUnderflow) ⟨pc, stack, frames, globals, [], ledger⟩

/-- Drops all that has been put on the stack and all frames opened since the innermost loop began,
and yields the note of it. -/
def unwind : Exec σ LoopRecord :=
  fun ⟨pc, stack, frames, globals, loops, ledger⟩ =>
    match loops with
    | record :: rest =>
      let stack := stack.drop (stack.length - record.stackSize)
      let frames := frames.drop (frames.length - record.frameCount)
      .ok record ⟨pc, stack, frames, globals, record :: rest, ledger⟩
    | [] => .error (.compile .jumpOutsideLoop) ⟨pc, stack, frames, globals, [], ledger⟩

/-- The object of keys and values that alternate. -/
def objectOf (done : Table Value) : List Value → Except Error (Table Value)
  | .string key :: value :: rest => objectOf (done.insert key value) rest
  | _ :: _ :: _ => .error (.compile .keyNotString)
  | _ => .ok done

/-- The effect of an instruction of a program. The offset is already that of the next one. -/
def perform (setting : Setting ι σ) (program : Program) : Op → Exec σ Unit
  | .constant index => do push (← ofExcept (program.constant index))
  | .loadLocal depth slot => do push (← readSlot depth.toNat slot.toNat)
  | .storeLocal depth slot => do
    let value ← peek
    writeSlot depth.toNat slot.toNat value
  | .loadName index => do
    let name ← ofExcept (program.nameConstant index)
    push (← readGlobal name)
  | .storeName index => do
    let name ← ofExcept (program.nameConstant index)
    let value ← peek
    writeGlobal name value
  | .defineName index => do
    let name ← ofExcept (program.nameConstant index)
    let value ← peek
    defineGlobal name value
  | .binary op => do
    let right ← pop
    let left ← pop
    push (← ofExcept (op.apply left right))
  | .unary op => do
    let operand ← pop
    push (← ofExcept (op.apply operand))
  | .shortCircuit op target => do
    let left ← ofExcept (requireBoolean op.symbol (← peek))
    if op.decides left then jumpTo target.toNat
    else
      let _ ← pop
  | .requireBool op => do
    let _ ← ofExcept (requireBoolean op.symbol (← peek))
  | .call name argc => do
    let name ← ofExcept (program.nameConstant name)
    let args ← popMany argc.toNat
    push (← ofRun (Run.call setting name args))
  | .makeArray count => do push (.array (← popMany count.toNat))
  | .makeObject count => do
    let flat ← popMany (count.toNat * 2)
    push (.object (← ofExcept (objectOf [] flat)))
  | .getProperty index => do
    let name ← ofExcept (program.nameConstant index)
    let target ← pop
    push (← ofExcept (target.property name))
  | .getIndex => do
    let position ← pop
    let target ← pop
    push (← ofExcept (target.index position))
  | .jump target => jumpTo target.toNat
  | .jumpIfFalse target => do
    let test ← pop
    if ← ofExcept (requireBoolean "condition" test) then pure ()
    else jumpTo target.toNat
  | .pop => do
    let _ ← pop
  | .enterScope slots => do
    ofRun (Run.checkpoint setting.limits)
    ofRun (Run.checkScopeDepth setting.limits ((← get).frames.length + 2))
    openFrame slots.toNat
  | .exitScope => closeFrame
  | .loopEnter continueTarget breakTarget => openLoop continueTarget.toNat breakTarget.toNat
  | .loopExit => closeLoop
  | .break_ => do jumpTo (← unwind).breakTarget
  | .continue_ => do jumpTo (← unwind).continueTarget
  | .tick => ofRun (Run.checkpoint setting.limits)

/-- Executes one instruction: a step is charged, then it takes effect. -/
def step (setting : Setting ι σ) (program : Program) (op : Op) : Exec σ Unit := do
  ofRun (Run.charge setting.limits)
  jumpTo ((← get).pc + 1)
  perform setting program op

/-- Executes instructions from the current offset on, at most so many, until there is none at the
offset reached. The result is the top of the stack, or null if it is empty. -/
def execute (setting : Setting ι σ) (program : Program) :
    Nat → Machine σ → EStateM.Result Halt (Machine σ) Value
  | 0, machine => .error .unfinished machine
  | n + 1, machine =>
    match program.code[machine.pc]? with
    | none => .ok (machine.stack.headD .null) machine
    | some op =>
      match step setting program op machine with
      | .ok () machine => execute setting program n machine
      | .error e machine => .error (.fail e) machine

/-- The machine before the first instruction. -/
def start (bindings : Table Value) (ledger : Ledger σ) : Machine σ :=
  ⟨0, [], [], Std.TreeMap.ofList bindings, [], ledger⟩

end Machine

/-- Runs a program whose global names are bound as given, for at most so many instructions. -/
def runProgram {ι σ : Type} (setting : Setting ι σ) (allowance : Nat) (program : Program)
    (bindings : Table Value) (ledger : Ledger σ) : EStateM.Result Halt (Machine σ) Value :=
  Machine.execute setting program allowance (Machine.start bindings ledger)

end Covenant
