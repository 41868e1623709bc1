import Covenant.Program.Basic
import Covenant.Scope
import Covenant.Script.Basic

/-!
# The code of an expression

What emission produces is described here without reference to how: `CodeOf` says that the code of an
expression stands in a program between two offsets, with its names resolved in the scopes there, and
which scopes the code behind it sees. Jump targets, slots and indices of constants are those of the
finished program.

## Main definitions

* `Program.At`, `Program.Pools` : an instruction and a constant of a program.
* `CodeOf` : the code of an expression stands in a program.
* `CodeOfStatements` : the code of the statements of a script stands in a program.
-/

namespace Covenant

/-- The instruction at an offset. -/
def Program.At (program : Program) (offset : Nat) (op : Op) : Prop :=
  program.code[offset]? = some op

/-- The constant at an index. -/
def Program.Pools (program : Program) (index : UInt32) (value : Value) : Prop :=
  program.constants[index.toNat]? = some value

/-- The instruction loads the value of a name. -/
inductive Loads (program : Program) (S : Scopes UInt16) (name : String) : Op → Prop
  | slot {depth slot : UInt16} : S.lookup? name = some (depth.toNat, slot) →
    Loads program S name (.loadLocal depth slot)
  | global {i : UInt32} : S.lookup? name = none → program.Pools i (.string name) →
    Loads program S name (.loadName i)

/-- The instruction gives a name a new value. -/
inductive Assigns (program : Program) (S : Scopes UInt16) (name : String) : Op → Prop
  | slot {depth slot : UInt16} : S.lookup? name = some (depth.toNat, slot) →
    Assigns program S name (.storeLocal depth slot)
  | bound {i : UInt32} : S.lookup? name = none → S.isGlobal = false →
    program.Pools i (.string name) → Assigns program S name (.storeName i)
  | global {i : UInt32} : S.lookup? name = none → S.isGlobal = true →
    program.Pools i (.string name) → Assigns program S name (.defineName i)

/-- The instruction binds a name, which the code behind it sees. -/
inductive Declares (program : Program) (S : Scopes UInt16) (name : String) :
    Op → Scopes UInt16 → Prop
  | again {slot : UInt16} : S.isGlobal = false → S.innermost[name]? = some slot →
    Declares program S name (.storeLocal 0 slot) S
  | fresh {slot : UInt16} : S.isGlobal = false → S.innermost[name]? = none →
    slot.toNat = S.localCount → Declares program S name (.storeLocal 0 slot) (S.define name slot)
  | global {i : UInt32} : S.isGlobal = true → program.Pools i (.string name) →
    Declares program S name (.defineName i) S

/-- The instruction of a jump. -/
def Jump.op : Jump → Op
  | .break_ => .break_
  | .continue_ => .continue_

variable (program : Program)

mutual

/-- The code of an expression stands between two offsets. Names are resolved in the first scopes,
and the code behind it sees the second. -/
inductive CodeOf : Scopes UInt16 → Nat → Expr → Nat → Scopes UInt16 → Prop
  | literal {S base value i} : program.At base (.constant i) → program.Pools i value →
    CodeOf S base (.literal value) (base + 1) S
  | ref {S base name op} : Loads program S name op → program.At base op →
    CodeOf S base (.ref name) (base + 1) S
  | binary {S S₁ S₂ base mid last left op right} : op.isLogical = false →
    CodeOf S base left mid S₁ → CodeOf S₁ mid right last S₂ → program.At last (.binary op) →
    CodeOf S base (.binary left op right) (last + 1) S₂
  | logical {S S₁ S₂ base mid last left op right done} : op.isLogical = true →
    CodeOf S base left mid S₁ → program.At mid (.shortCircuit op done) →
    CodeOf S₁ (mid + 1) right last S₂ → program.At last (.requireBool op) →
    done.toNat = last + 1 → CodeOf S base (.binary left op right) (last + 1) S₂
  | unary {S S₁ base last op operand} : CodeOf S base operand last S₁ →
    program.At last (.unary op) → CodeOf S base (.unary op operand) (last + 1) S₁
  | call {S S₁ base last name args i argc} : CodeOfAll S base args last S₁ →
    program.Pools i (.string name) → argc.toNat = args.length →
    program.At last (.call i argc) → CodeOf S base (.call name args) (last + 1) S₁
  | emptyBlock {S base slots i} : program.At base (.enterScope slots) →
    program.At (base + 1) (.constant i) → program.Pools i .null →
    program.At (base + 2) .exitScope → CodeOf S base (.block []) (base + 3) S
  | block {S S₁ S₂ base mid last e rest slots} : program.At base (.enterScope slots) →
    CodeOf S.push (base + 1) e mid S₁ → CodeOfRest S₁ mid rest last S₂ →
    program.At last .exitScope → slots.toNat = S₂.localCount →
    CodeOf S base (.block (e :: rest)) (last + 1) S₂.pop
  | cond {S S₁ S₂ S₃ base mid last fin test yes no toElse toEnd} : CodeOf S base test mid S₁ →
    program.At mid (.jumpIfFalse toElse) → CodeOf S₁ (mid + 1) yes last S₂ →
    program.At last (.jump toEnd) → CodeOfElse S₂ (last + 1) no fin S₃ →
    toElse.toNat = last + 1 → toEnd.toNat = fin → CodeOf S base (.cond test yes no) fin S₃
  | loop {S S₁ S₂ base mid last test body start done i} :
    program.At base (.loopEnter start done) → program.At (base + 1) .tick →
    CodeOfTest S (base + 2) test done mid S₁ → CodeOf S₁ mid body last S₂ →
    program.At last .pop → program.At (last + 1) (.jump start) →
    program.At (last + 2) .loopExit → program.At (last + 3) (.constant i) →
    program.Pools i .null → start.toNat = base + 1 → done.toNat = last + 2 →
    CodeOf S base (.loop test body) (last + 4) S₂
  | assign {S S₁ base last name value op} : CodeOf S base value last S₁ →
    Assigns program S₁ name op → program.At last op →
    CodeOf S base (.assign name value) (last + 1) S₁
  | declare {S S₁ S₂ base last name value op} : CodeOf S base value last S₁ →
    Declares program S₁ name op S₂ → program.At last op →
    CodeOf S base (.declare name value) (last + 1) S₂
  | object {S S₁ base last entries count} : CodeOfEntries S base entries last S₁ →
    count.toNat = entries.length → program.At last (.makeObject count) →
    CodeOf S base (.object entries) (last + 1) S₁
  | array {S S₁ base last items count} : CodeOfAll S base items last S₁ →
    count.toNat = items.length → program.At last (.makeArray count) →
    CodeOf S base (.array items) (last + 1) S₁
  | property {S S₁ base last target name i} : CodeOf S base target last S₁ →
    program.Pools i (.string name) → program.At last (.getProperty i) →
    CodeOf S base (.property target name) (last + 1) S₁
  | index {S S₁ S₂ base mid last target position} : CodeOf S base target mid S₁ →
    CodeOf S₁ mid position last S₂ → program.At last .getIndex →
    CodeOf S base (.index target position) (last + 1) S₂
  | jump {S base j} : program.At base j.op → CodeOf S base (.jump j) (base + 1) S

/-- The code of expressions one behind the other. -/
inductive CodeOfAll : Scopes UInt16 → Nat → List Expr → Nat → Scopes UInt16 → Prop
  | nil {S base} : CodeOfAll S base [] base S
  | cons {S S₁ S₂ base mid last e rest} : CodeOf S base e mid S₁ →
    CodeOfAll S₁ mid rest last S₂ → CodeOfAll S base (e :: rest) last S₂

/-- The code of further items, each of which drops the value before it. -/
inductive CodeOfRest : Scopes UInt16 → Nat → List Expr → Nat → Scopes UInt16 → Prop
  | nil {S base} : CodeOfRest S base [] base S
  | cons {S S₁ S₂ base mid last e rest} : program.At base .pop → CodeOf S (base + 1) e mid S₁ →
    CodeOfRest S₁ mid rest last S₂ → CodeOfRest S base (e :: rest) last S₂

/-- The code of entries, each a key and a value. -/
inductive CodeOfEntries :
    Scopes UInt16 → Nat → List (String × Expr) → Nat → Scopes UInt16 → Prop
  | nil {S base} : CodeOfEntries S base [] base S
  | cons {S S₁ S₂ base mid last key e rest i} : program.At base (.constant i) →
    program.Pools i (.string key) → CodeOf S (base + 1) e mid S₁ →
    CodeOfEntries S₁ mid rest last S₂ → CodeOfEntries S base ((key, e) :: rest) last S₂

/-- The code of the second branch of a choice. -/
inductive CodeOfElse : Scopes UInt16 → Nat → Option Expr → Nat → Scopes UInt16 → Prop
  | none {S base i} : program.At base (.constant i) → program.Pools i .null →
    CodeOfElse S base none (base + 1) S
  | some {S S₁ base last e} : CodeOf S base e last S₁ → CodeOfElse S base (some e) last S₁

/-- The code of the test of a repetition, which jumps to an offset if it is false. -/
inductive CodeOfTest :
    Scopes UInt16 → Nat → Option Expr → UInt32 → Nat → Scopes UInt16 → Prop
  | none {S base done} : CodeOfTest S base none done base S
  | some {S S₁ base last e done} : CodeOf S base e last S₁ →
    program.At last (.jumpIfFalse done) → CodeOfTest S base (some e) done (last + 1) S₁

end

/-- The code of the statements of a script stands at the beginning. -/
inductive CodeOfStatements : List Expr → Nat → Prop
  | none {i} : program.At 0 (.constant i) → program.Pools i .null → CodeOfStatements [] 1
  | some {S₁ S₂ mid last e rest} : CodeOf program .empty 0 e mid S₁ →
    CodeOfRest program S₁ mid rest last S₂ → CodeOfStatements (e :: rest) last

end Covenant
