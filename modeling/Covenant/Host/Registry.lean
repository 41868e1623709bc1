import Covenant.Error
import Covenant.Token.Identifier

/-!
# Capabilities and their registry

A capability is a function that a subsystem of the host offers to scripts under the name
`subsystem.function`, guarded by a permission. What the function does is of no concern here: the
implementation is of an arbitrary type.

A registry keeps capabilities under their qualified names. Both parts of a name are identifiers, so
the name determines the parts and every registered capability can be called from a script.

## Main definitions

* `Capability`, `Capability.qualifiedName`.
* `Registry.register`, `Registry.replace`, `Registry.remove`, `Registry.get?`.
-/

namespace Covenant

/-- A function of a host subsystem, guarded by a permission. -/
structure Capability (ι : Type) where
  subsystem : String
  function : String
  /-- The permission that a caller must hold. -/
  permission : String
  implementation : ι

/-- The name under which scripts call a capability. -/
def Capability.qualifiedName {ι : Type} (c : Capability ι) : String :=
  c.subsystem ++ "." ++ c.function

/-- Capabilities by qualified name. -/
structure Registry (ι : Type) where
  entries : Table (Capability ι)

namespace Registry

variable {ι : Type}

/-- Nothing is registered. -/
def empty : Registry ι := ⟨[]⟩

/-- The capability under a qualified name. -/
def get? (r : Registry ι) (name : String) : Option (Capability ι) :=
  Table.find? name r.entries

/-- Whether a qualified name is registered. -/
def contains (r : Registry ι) (name : String) : Bool :=
  Table.contains name r.entries

/-- The qualified names in ascending order. -/
def names (r : Registry ι) : List String :=
  Table.keys r.entries

/-- Fails unless both parts of a capability's name are identifiers. -/
def checkName (c : Capability ι) : Except Error Unit := do
  unless isIdentifier c.subsystem do throw (.invalidIdentifier c.subsystem)
  unless isIdentifier c.function do throw (.invalidIdentifier c.function)

/-- Registers a capability under a name that is not taken. -/
def register (r : Registry ι) (c : Capability ι) : Except Error (Registry ι) := do
  checkName c
  if r.contains c.qualifiedName then throw (.conflict .capability c.qualifiedName)
  return ⟨Table.insert c.qualifiedName c r.entries⟩

/-- Registers a capability in place of the one that has its name, if there is one. -/
def replace (r : Registry ι) (c : Capability ι) : Except Error (Registry ι) := do
  checkName c
  return ⟨Table.insert c.qualifiedName c r.entries⟩

/-- The registry without a qualified name. -/
def remove (r : Registry ι) (name : String) : Registry ι :=
  ⟨Table.erase name r.entries⟩

end Registry

end Covenant
