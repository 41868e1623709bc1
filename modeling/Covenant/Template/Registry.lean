import Covenant.Template.Builtin
import Covenant.Template.Json

/-!
# The template registry

Templates by name. Only well-formed templates enter, and a list of them enters as a whole or not at
all.

## Main definitions

* `TemplateRegistry.register`, `TemplateRegistry.registerOrReplace`, `TemplateRegistry.remove`.
* `TemplateRegistry.load`: all templates of a JSON text.
* `TemplateRegistry.text`: the JSON text of all templates.
-/

namespace Covenant

/-- Templates by name. -/
structure TemplateRegistry where
  entries : Table Template

namespace TemplateRegistry

/-- Nothing is registered. -/
def empty : TemplateRegistry := ⟨[]⟩

/-- The template with a name. -/
def get? (r : TemplateRegistry) (name : String) : Option Template :=
  Table.find? name r.entries

/-- Whether a name is taken. -/
def contains (r : TemplateRegistry) (name : String) : Bool :=
  Table.contains name r.entries

/-- The names in ascending order. -/
def names (r : TemplateRegistry) : List String :=
  Table.keys r.entries

/-- Puts a template under its name. -/
def put (r : TemplateRegistry) (t : Template) : TemplateRegistry :=
  ⟨Table.insert t.name t r.entries⟩

/-- Registers a template under a name that is not taken. -/
def register (r : TemplateRegistry) (t : Template) : Except Error TemplateRegistry := do
  t.validate
  if r.contains t.name then throw (.conflict .template t.name)
  return r.put t

/-- Registers a template, and yields the one that had its name. -/
def registerOrReplace (r : TemplateRegistry) (t : Template) :
    Except Error (TemplateRegistry × Option Template) := do
  t.validate
  return (r.put t, r.get? t.name)

/-- The registry without a name. -/
def remove (r : TemplateRegistry) (name : String) : TemplateRegistry :=
  ⟨Table.erase name r.entries⟩

/-- The built-in templates. -/
def builtins : Except Error TemplateRegistry :=
  Template.builtins.foldlM register empty

/-- The script of the template with a name. -/
def instantiate (r : TemplateRegistry) (name : String) (given : Table Value) :
    Except Error Script :=
  match r.get? name with
  | some t => t.instantiate given
  | none => .error (.unknownTemplate name)

/-- Fails unless all templates are well formed and no two have the same name. -/
def checkIncoming : List String → List Template → Except Error Unit
  | _, [] => .ok ()
  | seen, t :: rest => do
    t.validate
    if seen.contains t.name then throw (.conflict .template t.name)
    checkIncoming (t.name :: seen) rest

/-- Registers templates under names that are not taken: all of them, or none. -/
def registerAll (r : TemplateRegistry) (incoming : List Template) :
    Except Error TemplateRegistry := do
  checkIncoming [] incoming
  match incoming.find? fun t => r.contains t.name with
  | some t => throw (.conflict .template t.name)
  | none => return incoming.foldl put r

/-- Registers all templates of a JSON array, and yields their number. -/
def load (r : TemplateRegistry) (text : String) : Except Error (TemplateRegistry × Nat) := do
  match (Json.parse? text).bind (Json.list? Template.ofJson?) with
  | some incoming => return (← r.registerAll incoming, incoming.length)
  | none => throw .serialization

/-- The JSON text of all templates, one member on a line. -/
def text (r : TemplateRegistry) : String :=
  (Json.array ((Table.values r.entries).map Template.toJson)).pretty

end TemplateRegistry

end Covenant
