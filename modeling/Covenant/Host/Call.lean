import Covenant.Host.Permission
import Covenant.Host.Registry

/-!
# Calls to the host

A host is a registry together with what its implementations do. Implementations are a deterministic
machine: what one answers depends on its arguments and on a state that it may change, and it may ask
for the running execution to be cancelled. Every attempted call leaves a record, and no
implementation is reached but through `Host.invoke`, which checks the permission first.

## Main definitions

* `Reply`, `Host`: what implementations do.
* `CallRecord`, `CallOutcome`: the audit trail.
* `Host.invoke`: lookup, permission check, performance and record of one call.
-/

namespace Covenant

/-- What an implementation answers. -/
structure Reply where
  /-- The value, or the causes of its failure in words. -/
  result : Except String Value
  /-- Whether the running execution is asked to stop. -/
  cancels : Bool

/-- A registry of capabilities and the machine behind them. -/
structure Host (ι σ : Type) where
  registry : Registry ι
  /-- What an implementation does with arguments in a state. -/
  perform : ι → List Value → σ → Reply × σ

/-- How an attempted call ended. -/
inductive CallOutcome where
  /-- The implementation gave a value. -/
  | returned (value : Value)
  /-- The permission was missing, and the implementation was not reached. -/
  | denied (permission : String)
  /-- The implementation failed. -/
  | failed (cause : String)

/-- The record of one attempted call. -/
structure CallRecord where
  subsystem : String
  function : String
  args : List Value
  outcome : CallOutcome

/-- The name under which the recorded capability was called. -/
def CallRecord.qualifiedName (r : CallRecord) : String :=
  r.subsystem ++ "." ++ r.function

/-- What one attempted call leads to. -/
structure Attempt (σ : Type) where
  result : Except Error Value
  /-- The record it leaves; a name that is not registered leaves none. -/
  record : Option CallRecord
  /-- Whether the running execution is asked to stop. -/
  cancels : Bool
  /-- The state of the implementations afterwards. -/
  state : σ

/-- Calls a capability by its qualified name, if it is registered and its permission granted. -/
def Host.invoke {ι σ : Type} (host : Host ι σ) (granted : Permissions) (name : String)
    (args : List Value) (state : σ) : Attempt σ :=
  match host.registry.get? name with
  | none => ⟨.error (.notDefined name), none, false, state⟩
  | some c =>
    let record := fun outcome => some (⟨c.subsystem, c.function, args, outcome⟩ : CallRecord)
    if granted.allows c.permission then
      let (reply, state) := host.perform c.implementation args state
      match reply.result with
      | .ok value => ⟨.ok value, record (.returned value), reply.cancels, state⟩
      | .error cause =>
        ⟨.error (.hostCall c.subsystem c.function cause), record (.failed cause), reply.cancels,
          state⟩
    else ⟨.error (.permissionDenied name c.permission), record (.denied c.permission), false, state⟩

end Covenant
