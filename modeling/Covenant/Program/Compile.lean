import Covenant.Host.Registry
import Covenant.Program.Emit
import Covenant.Program.Fold
import Covenant.Run.Builtin

/-!
# Compilation

A script becomes a program if it is not too deep, if every call in it names a built-in function or a
registered capability whose permission is declared, and if its code fits. At level zero the script
is compiled as it stands, and at every other level after folding. Calls are checked before folding,
so also where folding removes them.

## Main definitions

* `checkCall`: whether a function may be called.
* `compile`: the program of a script.
-/

namespace Covenant

/-- Fails unless a name is that of a built-in function or of a capability whose permission is
declared. -/
def checkCall {ι : Type} (registry : Registry ι) (declared : Permissions) (name : String) :
    Except CompileFault Unit :=
  if Builtin.isName name then .ok ()
  else match registry.get? name with
    | none => .error (.unknownFunction name)
    | some c =>
      if declared.allows c.permission then .ok ()
      else .error (.undeclaredPermission name c.permission)

/-- The program of a script, which depends on nothing but the script, the registry, the declared
permissions and the level. -/
def compileScript {ι : Type} (level : UInt8) (registry : Registry ι) (script : Script)
    (declared : Permissions) : Except CompileFault Program := do
  if maxNesting < script.depth then throw .nestedTooDeep
  script.calls.forM fun (name, _) => checkCall registry declared name
  let source := if level = 0 then script else script.fold
  let (listing, layout) ← (Emit.emitScript source).run ⟨.empty, #[]⟩
  return {
    name := script.name
    level
    declared
    code := listing.code
    constants := layout.pool
    sourceMap := listing.entries.toList }

/-- Compiles a script. -/
def compile {ι : Type} (level : UInt8) (registry : Registry ι) (script : Script)
    (declared : Permissions) : Except Error Program :=
  (compileScript level registry script declared).mapError Error.compile

end Covenant
