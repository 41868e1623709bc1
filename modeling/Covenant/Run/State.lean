import Covenant.Host.Call
import Covenant.Run.Builtin
import Covenant.Run.Limits

/-!
# The state of a run

What every run shares, whether it interprets a script or executes a program: a setting that stays
fixed and a ledger of what has been used and produced so far. The ledger is kept when a run fails.

## Main definitions

* `Setting`: limits, host, permissions and clock.
* `Ledger`: steps, output, audit trail, cancellation and the state of the host.
* `Run`: a computation on the ledger that may fail.
* `Run.charge`, `Run.checkpoint`, `Run.checkScopeDepth`, `Run.checkExpressionDepth`: the limits.
* `Run.call`: a call of a built-in function or a capability.
-/

namespace Covenant

/-- What stays fixed during a run. -/
structure Setting (ι σ : Type) where
  limits : Limits
  host : Host ι σ
  /-- The permissions that calls may use. -/
  granted : Permissions
  /-- What the clock shows. -/
  clock : String

/-- What a run has used and produced so far. -/
structure Ledger (σ : Type) where
  steps : Nat
  /-- Whether the run has been asked to stop. -/
  cancelled : Bool
  /-- The lines written. -/
  output : Array String
  /-- The calls attempted. -/
  calls : Array CallRecord
  /-- The state of the host's implementations. -/
  host : σ

/-- The ledger at the start of a run. -/
def Ledger.start {σ : Type} (cancelled : Bool) (host : σ) : Ledger σ :=
  ⟨0, cancelled, #[], #[], host⟩

/-- A computation on the ledger that may fail; a failure keeps the ledger reached. -/
abbrev Run (σ : Type) := EStateM Error (Ledger σ)

namespace Run

variable {ι σ : Type}

/-- Fails with an error. -/
def fail {α : Type} (e : Error) : Run σ α :=
  fun ledger => .error e ledger

/-- The result of a computation without effects. -/
def ofExcept {α : Type} (result : Except Error α) : Run σ α :=
  fun ledger =>
    match result with
    | .ok a => .ok a ledger
    | .error e => .error e ledger

/-- Charges one step; one more than the limit fails. -/
def charge (limits : Limits) : Run σ Unit :=
  fun ⟨steps, cancelled, output, calls, host⟩ =>
    let ledger := ⟨steps + 1, cancelled, output, calls, host⟩
    match limits.maxSteps with
    | some limit =>
      if limit.toNat < steps + 1 then .error (.exhausted .steps limit.toNat) ledger
      else .ok () ledger
    | none => .ok () ledger

/-- The place where a run notices that it should stop, or that its deadline is over. -/
def checkpoint (limits : Limits) : Run σ Unit :=
  fun ledger =>
    if ledger.cancelled then .error .cancelled ledger
    else match limits.expired? with
      | some limit => .error (.exhausted .time limit.toNat) ledger
      | none => .ok () ledger

/-- Fails if more frames are open than the limit allows. -/
def checkScopeDepth (limits : Limits) (depth : Nat) : Run σ Unit :=
  if limits.maxScopeDepth.toNat < depth then
    fail (.exhausted .scopeDepth limits.maxScopeDepth.toNat)
  else pure ()

/-- Fails if more expressions are under evaluation than the limit allows. -/
def checkExpressionDepth (limits : Limits) (depth : Nat) : Run σ Unit :=
  if limits.maxExpressionDepth.toNat < depth then
    fail (.exhausted .expressionDepth limits.maxExpressionDepth.toNat)
  else pure ()

/-- Writes a line. -/
def write (line : String) : Run σ Unit :=
  fun ⟨steps, cancelled, output, calls, host⟩ =>
    .ok () ⟨steps, cancelled, output.push line, calls, host⟩

/-- Calls a capability and keeps the record of it. -/
def invoke (setting : Setting ι σ) (name : String) (args : List Value) : Run σ Value :=
  fun ⟨steps, cancelled, output, calls, host⟩ =>
    let attempt := setting.host.invoke setting.granted name args host
    let calls :=
      match attempt.record with
      | some record => calls.push record
      | none => calls
    let ledger := ⟨steps, cancelled || attempt.cancels, output, calls, attempt.state⟩
    match attempt.result with
    | .ok value => .ok value ledger
    | .error e => .error e ledger

/-- Calls a built-in function: the line it writes, then its result. -/
def builtin (setting : Setting ι σ) (b : Builtin) (args : List Value) : Run σ Value := do
  match b.line? args with
  | some line => write line
  | none => pure ()
  ofExcept (b.apply setting.clock args)

/-- Calls a function by name: a built-in one first, then a capability if the name has a point. -/
def call (setting : Setting ι σ) (name : String) (args : List Value) : Run σ Value :=
  match Builtin.ofName? name with
  | some b => builtin setting b args
  | none =>
    if name.toList.contains '.' then invoke setting name args
    else fail (.notDefined name)

end Run

/-- What a run that ended with a value has produced. -/
structure Outcome where
  value : Value
  output : List String
  calls : List CallRecord
  steps : Nat

end Covenant
