import Covenant.Host.Stock
import Covenant.Interpreter
import Covenant.Program.Compile
import Covenant.Program.Json
import Covenant.Program.Machine
import Covenant.Template.Registry

/-!
# The engine

An engine holds a configuration, the capabilities of a host and templates. It reads, interprets,
compiles and runs scripts for its owner, with options for each run.

## Main definitions

* `Config`, with its JSON form, and `Options`.
* `Engine`, `Engine.create`.
* `Engine.execute`, `Engine.evaluate`, `Engine.run`: the three kinds of runs.
* `Engine.compile`.
-/

namespace Covenant

/-! ### Configuration -/

/-- The document of a limit that may be absent. -/
def limitToJson : Option UInt64 → Json
  | some n => .integer n.toNat
  | none => .null

/-- The document of limits. -/
def Limits.toJson (l : Limits) : Json :=
  .object [
    ("max_steps", limitToJson l.maxSteps),
    ("max_duration_ms", limitToJson l.maxDuration),
    ("max_scope_depth", .integer l.maxScopeDepth.toNat),
    ("max_expression_depth", .integer l.maxExpressionDepth.toNat)]

/-- The limits of a document; what is not given is as by default. -/
def Limits.ofJson? (j : Json) : Option Limits := do
  let r ← j.record? ["max_steps", "max_duration_ms", "max_scope_depth", "max_expression_depth"]
  let default : Limits := {}
  return {
    maxSteps := ← r.defaulted? "max_steps" default.maxSteps (Json.nullable? Json.word64?)
    maxDuration :=
      ← r.defaulted? "max_duration_ms" default.maxDuration (Json.nullable? Json.word64?)
    maxScopeDepth := ← r.defaulted? "max_scope_depth" default.maxScopeDepth Json.word64?
    maxExpressionDepth :=
      ← r.defaulted? "max_expression_depth" default.maxExpressionDepth Json.word64? }

/-- The configuration of an engine. -/
structure Config where
  /-- The limits of runs that bring none of their own. -/
  limits : Limits := {}
  /-- The optimization level of compilation. -/
  level : UInt8 := defaultLevel
  /-- Whether the built-in templates are offered. -/
  builtinTemplates : Bool := true
deriving Repr, DecidableEq

/-- The document of a configuration. -/
def Config.toJson (c : Config) : Json :=
  .object [
    ("limits", c.limits.toJson),
    ("compiler", levelToJson c.level),
    ("builtin_templates", .boolean c.builtinTemplates)]

/-- The configuration of a document; what is not given is as by default. -/
def Config.ofJson? (j : Json) : Option Config := do
  let r ← j.record? ["limits", "compiler", "builtin_templates"]
  return {
    limits := ← r.defaulted? "limits" {} Limits.ofJson?
    level := ← r.defaulted? "compiler" defaultLevel levelOfJson?
    builtinTemplates := ← r.defaulted? "builtin_templates" true Json.flag? }

/-- The configuration that a JSON text writes. -/
def Config.parseJson? (text : String) : Option Config :=
  (Json.parse? text).bind ofJson?

/-! ### Runs -/

/-- What an owner decides for one run. -/
structure Options where
  /-- The permissions that calls may use. -/
  granted : Permissions := .none
  /-- The names bound before the first statement. -/
  bindings : Table Value := []
  /-- Limits in place of those of the engine. -/
  limits : Option Limits := none
  /-- Whether the run is cancelled before it begins. -/
  cancelled : Bool := false

/-- How a run ends. -/
inductive Ending where
  | value (outcome : Outcome)
  | error (error : Error)
  /-- The run goes on beyond what was allowed. -/
  | unfinished

/-- An engine. -/
structure Engine (ι : Type) where
  config : Config
  capabilities : Registry ι
  templates : TemplateRegistry

/-- The world around an engine: what implementations do, what the clock shows, and how many rounds
a run without a step limit may take. -/
structure Surroundings (ι σ : Type) where
  perform : ι → List Value → σ → Reply × σ
  clock : String
  horizon : Nat

/-- A number of rounds that no run within the step limit uses up; without a limit, the horizon. -/
def Limits.allowance (limits : Limits) (horizon : Nat) : Nat :=
  match limits.maxSteps with
  | some n => n.toNat + 2
  | none => horizon

/-- What a run has produced when it ends with a value. -/
def Ledger.outcome {σ : Type} (ledger : Ledger σ) (value : Value) : Outcome :=
  ⟨value, ledger.output.toList, ledger.calls.toList, ledger.steps⟩

namespace Engine

variable {ι σ : Type}

/-- An engine without capabilities. -/
def create (config : Config) : Except Error (Engine ι) := do
  let templates ← if config.builtinTemplates then TemplateRegistry.builtins else pure .empty
  return { config, capabilities := .empty, templates }

/-- The limits of a run. -/
def limitsFor (engine : Engine ι) (options : Options) : Limits :=
  options.limits.getD engine.config.limits

/-- The setting of a run. -/
def setting (engine : Engine ι) (around : Surroundings ι σ) (options : Options) : Setting ι σ where
  limits := engine.limitsFor options
  host := ⟨engine.capabilities, around.perform⟩
  granted := options.granted
  clock := around.clock

/-- How an evaluation ends for the owner. -/
def endingOf (result : EStateM.Result Exit (World σ) Value) : Ending × World σ :=
  match result with
  | .ok value world => (.value (world.ledger.outcome value), world)
  | .error exit world =>
    match exit.error? with
    | some e => (.error e, world)
    | none => (.unfinished, world)

/-- Interprets a script. -/
def execute (engine : Engine ι) (around : Surroundings ι σ) (options : Options) (script : Script)
    (state : σ) : Ending × σ :=
  let setting := engine.setting around options
  let allowance := setting.limits.allowance around.horizon
  let (ending, world) :=
    endingOf (interpret setting allowance script options.bindings (.start options.cancelled state))
  (ending, world.ledger.host)

/-- Evaluates one expression in scopes of the owner's, which keep what it binds; the bindings of
the options are not used. -/
def evaluate (engine : Engine ι) (around : Surroundings ι σ) (options : Options) (e : Expr)
    (scopes : Scopes Value) (state : σ) : Ending × Scopes Value × σ :=
  let setting := engine.setting around options
  let allowance := setting.limits.allowance around.horizon
  let (ending, world) :=
    endingOf (Covenant.evaluate setting allowance e ⟨scopes, .start options.cancelled state⟩)
  (ending, world.scopes, world.ledger.host)

/-- Compiles a script at the engine's level. -/
def compile (engine : Engine ι) (script : Script) (declared : Permissions) :
    Except Error Program :=
  Covenant.compile engine.config.level engine.capabilities script declared

/-- Runs a program. -/
def run (engine : Engine ι) (around : Surroundings ι σ) (options : Options) (program : Program)
    (state : σ) : Ending × σ :=
  let setting := engine.setting around options
  let allowance := setting.limits.allowance around.horizon
  match runProgram setting allowance program options.bindings (.start options.cancelled state) with
  | .ok value machine => (.value (machine.ledger.outcome value), machine.ledger.host)
  | .error (.fail e) machine => (.error e, machine.ledger.host)
  | .error .unfinished machine => (.unfinished, machine.ledger.host)

end Engine

/-- The version of the engine. -/
def version : String := "0.1.0"

end Covenant
