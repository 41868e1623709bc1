import Covenant.Program.Basic
import Covenant.Scope
import Covenant.Script.Basic

/-!
# From expressions to instructions

The code of an expression leaves exactly its value on the stack. It is put together from the code of
its parts, which is made for the place where it will stand, so that jumps are to absolute offsets
and need no correction afterwards.

Names declared in blocks are resolved here, with the scoping rules of evaluation. The constants of a
program are pooled: values that are identical share an index.

## Main definitions

* `Layout`: the slots of the names in scope, and the pool.
* `emit`: the code of an expression that stands at an offset.
* `emitScript`: the code, constants and source map of a script.
-/

namespace Covenant.Emit

/-- What emission keeps: where the names in scope are, and the constants so far. -/
structure Layout where
  scopes : Scopes UInt16
  pool : Array Value

/-- Emission keeps a layout and may fail. -/
abbrev EmitM := StateT Layout (Except CompileFault)

/-- A number as a jump target or offset. -/
def target (n : Nat) : EmitM UInt32 :=
  if n < UInt32.size then return n.toUInt32 else throw .tooLarge

/-- A number as a count of 32 bits. -/
def count (n : Nat) (fault : CompileFault) : EmitM UInt32 :=
  if n < UInt32.size then return n.toUInt32 else throw fault

/-- A number as a count of 16 bits. -/
def shortCount (n : Nat) (fault : CompileFault) : EmitM UInt16 :=
  if n < UInt16.size then return n.toUInt16 else throw fault

/-- The index of a value in the pool, to which it is added if no identical one is there. -/
def pooled (value : Value) : EmitM UInt32 := do
  let layout ← get
  match layout.pool.findIdx? (·.identical value) with
  | some i => count i .poolOverflow
  | none =>
    set { layout with pool := layout.pool.push value }
    count layout.pool.size .poolOverflow

/-- The index of a name in the pool. -/
def pooledName (name : String) : EmitM UInt32 :=
  pooled (.string name)

/-- Where a name declared in a block is: how many frames outward, and in which slot. -/
def resolve (name : String) : EmitM (Option (UInt16 × UInt16)) := do
  match (← get).scopes.lookup? name with
  | some (hops, slot) => return some (← shortCount hops .tooManyScopes, slot)
  | none => return none

/-- The slot of a name declared in the innermost block, which is a new one unless the name has been
declared there before. -/
def slotFor (name : String) : EmitM UInt16 := do
  let layout ← get
  match layout.scopes.innermost[name]? with
  | some slot => return slot
  | none =>
    let slot ← shortCount layout.scopes.localCount .tooManyBindings
    set { layout with scopes := layout.scopes.define name slot }
    return slot

/-- Changes the open scopes. -/
def modifyScopes (f : Scopes UInt16 → Scopes UInt16) : EmitM Unit :=
  modify fun layout => { layout with scopes := f layout.scopes }

/-- Reading a name. -/
def emitRef (name : String) : EmitM Op := do
  match ← resolve name with
  | some (depth, slot) => return .loadLocal depth slot
  | none => return .loadName (← pooledName name)

/-- Storing the top of the stack under a name. A name that no block declares is global, and outside
all blocks storing also binds it. -/
def emitAssign (name : String) : EmitM Op := do
  match ← resolve name with
  | some (depth, slot) => return .storeLocal depth slot
  | none =>
    let index ← pooledName name
    if (← get).scopes.isGlobal then return .defineName index
    else return .storeName index

/-- Storing the top of the stack under a new name. -/
def emitDeclare (name : String) : EmitM Op := do
  if (← get).scopes.isGlobal then return .defineName (← pooledName name)
  else return .storeLocal 0 (← slotFor name)

mutual

/-- The code of an expression whose first instruction stands at offset `base`. -/
def emit (base : Nat) : Expr → EmitM (Array Op)
  | .literal value => return #[.constant (← pooled value)]
  | .ref name => return #[← emitRef name]
  | .binary left op right => do
    let first ← emit base left
    if op.isLogical then
      let second ← emit (base + first.size + 1) right
      let done ← target (base + first.size + second.size + 2)
      return (first.push (.shortCircuit op done) ++ second).push (.requireBool op)
    else
      let second ← emit (base + first.size) right
      return (first ++ second).push (.binary op)
  | .unary op operand => return (← emit base operand).push (.unary op)
  | .call name args => do
    let code ← emitAll base #[] args
    let index ← pooledName name
    let argc ← shortCount args.length .tooManyArguments
    return code.push (.call index argc)
  | .block items => do
    modifyScopes Scopes.push
    let code ←
      match items with
      | [] => pure #[.constant (← pooled .null)]
      | e :: rest => emitItems (base + 1) (← emit (base + 1) e) rest
    let slots ← shortCount (← get).scopes.localCount .tooManyBindings
    modifyScopes Scopes.pop
    return (#[Op.enterScope slots] ++ code).push .exitScope
  | .cond test yes no => do
    let first ← emit base test
    let second ← emit (base + first.size + 1) yes
    let otherwise := base + first.size + second.size + 2
    let third ←
      match no with
      | some e => emit otherwise e
      | none => pure #[.constant (← pooled .null)]
    let toElse ← target otherwise
    let toEnd ← target (otherwise + third.size)
    return (first.push (.jumpIfFalse toElse) ++ second).push (.jump toEnd) ++ third
  | .loop test body => do
    let start ← target (base + 1)
    let tested ←
      match test with
      | some e => emit (base + 2) e
      | none => pure #[]
    let leaving := if test.isSome then 1 else 0
    let repeated ← emit (base + 2 + tested.size + leaving) body
    let done ← target (base + 2 + tested.size + leaving + repeated.size + 2)
    let null ← pooled .null
    let leave : Array Op := if test.isSome then #[.jumpIfFalse done] else #[]
    return #[Op.loopEnter start done, .tick] ++ tested ++ leave ++ repeated ++
      #[.pop, .jump start, .loopExit, .constant null]
  | .assign name value => do
    let code ← emit base value
    return code.push (← emitAssign name)
  | .declare name value => do
    let code ← emit base value
    return code.push (← emitDeclare name)
  | .object entries => do
    let code ← emitEntries base #[] entries
    return code.push (.makeObject (← count entries.length .tooManyEntries))
  | .array items => do
    let code ← emitAll base #[] items
    return code.push (.makeArray (← count items.length .tooManyItems))
  | .property value name => do
    let code ← emit base value
    return code.push (.getProperty (← pooledName name))
  | .index value position => do
    let first ← emit base value
    let second ← emit (base + first.size) position
    return (first ++ second).push .getIndex
  | .jump .break_ => return #[.break_]
  | .jump .continue_ => return #[.continue_]
termination_by structural e => e

/-- The code of expressions one behind the other, each of which leaves its value on the stack. -/
def emitAll (base : Nat) (code : Array Op) : List Expr → EmitM (Array Op)
  | [] => return code
  | e :: rest => do
    let more ← emit (base + code.size) e
    emitAll base (code ++ more) rest
termination_by structural es => es

/-- The code of further items behind that of the first; only the last leaves its value. -/
def emitItems (base : Nat) (code : Array Op) : List Expr → EmitM (Array Op)
  | [] => return code
  | e :: rest => do
    let more ← emit (base + code.size + 1) e
    emitItems base (code.push .pop ++ more) rest
termination_by structural es => es

/-- The code of entries one behind the other, each a key and a value. -/
def emitEntries (base : Nat) (code : Array Op) : List (String × Expr) → EmitM (Array Op)
  | [] => return code
  | (key, e) :: rest => do
    let code := code.push (.constant (← pooledName key))
    let more ← emit (base + code.size) e
    emitEntries base (code ++ more) rest
termination_by structural es => es

end

/-- Code and source map of the statements so far. -/
structure Listing where
  code : Array Op
  entries : Array SourceEntry

/-- The code of further statements. All but the first drop the value of the one before. -/
def emitStatements (listing : Listing) : List Statement → EmitM Listing
  | [] => return listing
  | s :: rest => do
    let code := if listing.code.isEmpty then listing.code else listing.code.push .pop
    let entries ←
      match s.location with
      | some location => pure (listing.entries.push ⟨← target code.size, location⟩)
      | none => pure listing.entries
    let more ← emit code.size s.expression
    emitStatements ⟨code ++ more, entries⟩ rest

/-- The code of a script; one without statements has the value null. -/
def emitScript (script : Script) : EmitM Listing := do
  if script.statements.isEmpty then
    return ⟨#[.constant (← pooled .null)], #[]⟩
  else emitStatements ⟨#[], #[]⟩ script.statements

end Covenant.Emit
