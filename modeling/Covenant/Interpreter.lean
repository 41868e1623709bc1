import Covenant.Operator.Apply
import Covenant.Run.State
import Covenant.Scope
import Covenant.Script.Basic

/-!
# The interpreter

Evaluation of expressions by their structure. Each evaluated node is charged one step; blocks and
loop rounds are the checkpoints. A jump travels outward until a loop whose body it left takes it.

Evaluation recurs on the expression. Only loops go on for an unknown number of rounds, so they take
an allowance; a run with a step limit cannot use up an allowance greater than the limit, since every
round charges a step.

## Main definitions

* `Exit`: the ways to leave an evaluation without a value.
* `World`: the scopes and the ledger.
* `eval`: the value of an expression.
* `interpret`: the value of a script's last statement.
-/

namespace Covenant

/-- The ways to leave an evaluation without a value. -/
inductive Exit where
  /-- A jump that no loop has taken yet. -/
  | jump (jump : Jump)
  /-- An error. -/
  | fail (error : Error)
  /-- A loop has used up its allowance of rounds. -/
  | unfinished
deriving DecidableEq

/-- What evaluation reads and changes. -/
structure World (σ : Type) where
  scopes : Scopes Value
  ledger : Ledger σ

/-- An evaluation; leaving it without a value keeps the world reached. -/
abbrev Eval (σ : Type) := EStateM Exit (World σ)

namespace Eval

variable {ι σ : Type}

/-- A computation on the ledger as part of an evaluation. -/
def ofRun {α : Type} (run : Run σ α) : Eval σ α :=
  fun ⟨scopes, ledger⟩ =>
    match run ledger with
    | .ok a ledger => .ok a ⟨scopes, ledger⟩
    | .error e ledger => .error (.fail e) ⟨scopes, ledger⟩

/-- The result of a computation without effects. -/
def ofExcept {α : Type} (result : Except Error α) : Eval σ α :=
  fun world =>
    match result with
    | .ok a => .ok a world
    | .error e => .error (.fail e) world

/-- The value of a name. -/
def readName (name : String) : Eval σ Value :=
  fun world => ofExcept (world.scopes.get name) world

/-- Binds a name in the innermost scope. -/
def define (name : String) (value : Value) : Eval σ Unit :=
  fun ⟨scopes, ledger⟩ => .ok () ⟨scopes.define name value, ledger⟩

/-- Gives a name a new value. In the global scope a name without a binding gets one; elsewhere
that is an error. -/
def assign (name : String) (value : Value) : Eval σ Unit :=
  fun ⟨scopes, ledger⟩ =>
    if scopes.isGlobal && (scopes.lookup? name).isNone then
      .ok () ⟨scopes.define name value, ledger⟩
    else
      match scopes.set name value with
      | .ok scopes => .ok () ⟨scopes, ledger⟩
      | .error e => .error (.fail e) ⟨scopes, ledger⟩

/-- Evaluates in a scope of its own, which is closed however the evaluation ends. -/
def inScope {α : Type} (limits : Limits) (body : Eval σ α) : Eval σ α := do
  ofRun (Run.checkpoint limits)
  let inside : Eval σ α := do
    ofRun (Run.checkScopeDepth limits (← get).scopes.depth)
    body
  fun ⟨scopes, ledger⟩ =>
    match inside ⟨scopes.push, ledger⟩ with
    | .ok a ⟨scopes, ledger⟩ => .ok a ⟨scopes.pop, ledger⟩
    | .error e ⟨scopes, ledger⟩ => .error e ⟨scopes.pop, ledger⟩

/-- Evaluates a loop body and yields whether the loop goes on: it does unless left by a break. -/
def loopBody {α : Type} (body : Eval σ α) : Eval σ Bool :=
  fun world =>
    match body world with
    | .ok _ world => .ok true world
    | .error (.jump .continue_) world => .ok true world
    | .error (.jump .break_) world => .ok false world
    | .error e world => .error e world

/-- Repeats a round for as long as it yields true, at most so many times. -/
def repeatWhile (round : Eval σ Bool) : Nat → Eval σ Unit
  | 0 => fun world => .error .unfinished world
  | n + 1 => do
    if ← round then repeatWhile round n
    else pure ()

/-- What every node begins with: one step, and one more expression under evaluation. -/
def enter (setting : Setting ι σ) (depth : Nat) : Eval σ Unit := do
  ofRun (Run.charge setting.limits)
  ofRun (Run.checkExpressionDepth setting.limits depth)

end Eval

open Eval in
mutual

/-- The value of an expression with `depth` expressions under evaluation around it. Loops take at
most `allowance` rounds. -/
def eval {ι σ : Type} (setting : Setting ι σ) (allowance : Nat) (depth : Nat) :
    Expr → Eval σ Value
  | .literal value => do
    enter setting (depth + 1)
    return value
  | .ref name => do
    enter setting (depth + 1)
    readName name
  | .binary left op right => do
    enter setting (depth + 1)
    if op.isLogical then
      let a ← ofExcept (requireBoolean op.symbol (← eval setting allowance (depth + 1) left))
      if op.decides a then return .boolean a
      let b ← ofExcept (requireBoolean op.symbol (← eval setting allowance (depth + 1) right))
      return .boolean b
    else
      let a ← eval setting allowance (depth + 1) left
      let b ← eval setting allowance (depth + 1) right
      ofExcept (op.apply a b)
  | .unary op operand => do
    enter setting (depth + 1)
    let a ← eval setting allowance (depth + 1) operand
    ofExcept (op.apply a)
  | .call name args => do
    enter setting (depth + 1)
    let values ← evalAll setting allowance (depth + 1) [] args
    ofRun (Run.call setting name values)
  | .block items => do
    enter setting (depth + 1)
    inScope setting.limits (evalItems setting allowance (depth + 1) .null items)
  | .cond test yes no => do
    enter setting (depth + 1)
    let flag ← ofExcept (requireBoolean "if condition" (← eval setting allowance (depth + 1) test))
    if flag then eval setting allowance (depth + 1) yes
    else
      match no with
      | some e => eval setting allowance (depth + 1) e
      | none => return .null
  | .loop test body => do
    enter setting (depth + 1)
    let round : Eval σ Bool := do
      ofRun (Run.checkpoint setting.limits)
      let goesOn ←
        match test with
        | some e =>
          ofExcept (requireBoolean "loop condition" (← eval setting allowance (depth + 1) e))
        | none => pure true
      if goesOn then loopBody (eval setting allowance (depth + 1) body)
      else return false
    repeatWhile round allowance
    return .null
  | .assign target value => do
    enter setting (depth + 1)
    let a ← eval setting allowance (depth + 1) value
    assign target a
    return a
  | .declare name value => do
    enter setting (depth + 1)
    let a ← eval setting allowance (depth + 1) value
    define name a
    return a
  | .object entries => do
    enter setting (depth + 1)
    return .object (← evalEntries setting allowance (depth + 1) [] entries)
  | .array items => do
    enter setting (depth + 1)
    return .array (← evalAll setting allowance (depth + 1) [] items)
  | .property target name => do
    enter setting (depth + 1)
    let a ← eval setting allowance (depth + 1) target
    ofExcept (a.property name)
  | .index target position => do
    enter setting (depth + 1)
    let a ← eval setting allowance (depth + 1) target
    let b ← eval setting allowance (depth + 1) position
    ofExcept (a.index b)
  | .jump j => do
    enter setting (depth + 1)
    throw (.jump j)
termination_by structural e => e

/-- The values of expressions in turn, behind those already computed, the last of which comes
first. -/
def evalAll {ι σ : Type} (setting : Setting ι σ) (allowance : Nat) (depth : Nat)
    (done : List Value) : List Expr → Eval σ (List Value)
  | [] => return done.reverse
  | e :: rest => do
    let value ← eval setting allowance depth e
    evalAll setting allowance depth (value :: done) rest
termination_by structural es => es

/-- The value of the last of several expressions, evaluated in turn. -/
def evalItems {ι σ : Type} (setting : Setting ι σ) (allowance : Nat) (depth : Nat)
    (last : Value) : List Expr → Eval σ Value
  | [] => return last
  | e :: rest => do
    let value ← eval setting allowance depth e
    evalItems setting allowance depth value rest
termination_by structural es => es

/-- The fields that entries evaluate to, in turn; of those with one key the last wins. -/
def evalEntries {ι σ : Type} (setting : Setting ι σ) (allowance : Nat) (depth : Nat)
    (done : Table Value) : List (String × Expr) → Eval σ (Table Value)
  | [] => return done
  | (key, e) :: rest => do
    let value ← eval setting allowance depth e
    evalEntries setting allowance depth (done.insert key value) rest
termination_by structural es => es

end

/-- How an evaluation ends for its caller: a jump that no loop took is an error. `none` stands for
an evaluation that used up its allowance. -/
def Exit.error? : Exit → Option Error
  | .jump j => some (.type (.jumpOutsideLoop j))
  | .fail e => some e
  | .unfinished => none

/-- An evaluation from outside any expression. -/
def evaluate {ι σ : Type} (setting : Setting ι σ) (allowance : Nat) (e : Expr) : Eval σ Value :=
  eval setting allowance 0 e

/-- The value of the last of several statements, evaluated in turn. -/
def evalStatements {ι σ : Type} (setting : Setting ι σ) (allowance : Nat) (last : Value) :
    List Statement → Eval σ Value
  | [] => return last
  | s :: rest => do
    let value ← evaluate setting allowance s.expression
    evalStatements setting allowance value rest

/-- The global scope that holds given bindings. -/
def globalsOf (bindings : Table Value) : Scopes Value :=
  bindings.foldl (fun scopes entry => scopes.define entry.1 entry.2) .empty

/-- Evaluates a script in a new global scope that holds the bindings. -/
def interpret {ι σ : Type} (setting : Setting ι σ) (allowance : Nat) (script : Script)
    (bindings : Table Value) (ledger : Ledger σ) : EStateM.Result Exit (World σ) Value :=
  evalStatements setting allowance .null script.statements ⟨globalsOf bindings, ledger⟩

end Covenant
