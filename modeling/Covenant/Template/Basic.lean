import Covenant.Calendar
import Covenant.Json.Basic
import Covenant.Script.Parser
import Covenant.Template.Placeholder
import Covenant.Value.Json
import Covenant.Value.Render

/-!
# Templates

A template is a script text with placeholders and a list of typed parameters. Instantiation checks
the given parameters, fills in what is not given, replaces each placeholder by the source form of
its value, and reads the result as a script.

## Main definitions

* `ParameterType`, `ParameterType.accept`: which values a parameter takes.
* `Parameter`, `Template`.
* `Template.validate`: whether a template is well formed.
* `Template.instantiate`: the script for given parameters.
-/

namespace Covenant

/-- The declared type of a parameter. -/
inductive ParameterType where
  | string
  /-- A finite double; an integer is converted. -/
  | number
  | integer
  | boolean
  | object
  | array
  /-- A decentralized identifier. -/
  | address
  /-- A timestamp or a plain date. -/
  | date
  /-- One of several texts. -/
  | select (options : List String)
deriving Repr, DecidableEq

namespace ParameterType

/-- How messages name a type. -/
def describe : ParameterType → String
  | string => "string"
  | number => "number"
  | integer => "integer"
  | boolean => "boolean"
  | object => "object"
  | array => "array"
  | address => "address"
  | date => "date"
  | select options => "one of [" ++ String.intercalate ", " options ++ "]"

/-- Whether a text is a decentralized identifier: something behind its mark. -/
def isAddress (text : String) : Bool :=
  "did:".toList.isPrefixOf text.toList && 4 < text.toList.length

/-- Whether what a text says matters, and not only that it is a text. -/
def readsText : ParameterType → Bool
  | address | date | select _ => true
  | _ => false

/-- The value that a parameter of this type takes for a given one, if it takes it. -/
def accept? (type : ParameterType) (value : Value) : Option Value :=
  match type, value with
  | string, .string _ => some value
  | integer, .integer _ => some value
  | boolean, .boolean _ => some value
  | object, .object _ => some value
  | array, .array _ => some value
  | number, .number x => if x.isFinite then some value else none
  | number, .integer n => some (.number (Double.ofInteger n.toInt))
  | address, .string text => if isAddress text then some value else none
  | date, .string text => if Calendar.isDate text then some value else none
  | select options, .string text => if options.contains text then some value else none
  | _, _ => none

/-- How messages name a value that is not taken: the text itself where it matters, and otherwise
the kind. -/
def found (type : ParameterType) (value : Value) : String :=
  match value with
  | .string _ => if type.readsText then value.render else value.kind.name
  | _ => value.kind.name

/-- The value that a parameter of this type takes for a given one, or how to name what is wrong. -/
def accept (type : ParameterType) (value : Value) : Except String Value :=
  match type.accept? value with
  | some taken => .ok taken
  | none => .error (type.found value)

end ParameterType

/-- A declared parameter. -/
structure Parameter where
  name : String
  type : ParameterType
  description : String := ""
  /-- Whether it must be given. -/
  required : Bool := false
  /-- What it is if it is not given. -/
  default? : Option Value := none

/-- A script text with placeholders. -/
structure Template where
  name : String
  description : String := ""
  parameters : List Parameter := []
  script : String
  documentation : Option String := none
  tags : List String := []

namespace Template

/-- The names of the placeholders, in order of first use. -/
def placeholders (t : Template) : List String :=
  placeholderNames t.script

/-- Fails unless the parameters have names that can be written, each once, and defaults of their
types. -/
def checkParameters (t : Template) : List String → List Parameter → Except Error Unit
  | _, [] => .ok ()
  | declared, p :: rest => do
    unless isIdentifier p.name do throw (.invalidTemplate t.name (.parameterName p.name))
    if declared.contains p.name then throw (.invalidTemplate t.name (.duplicateParameter p.name))
    match p.default? with
    | some value =>
      match p.type.accept value with
      | .ok _ => pure ()
      | .error found =>
        throw (.invalidTemplate t.name (.defaultMismatch p.name p.type.describe found))
    | none => pure ()
    checkParameters t (p.name :: declared) rest

/-- Fails unless every placeholder is declared as a parameter. -/
def checkPlaceholders (t : Template) : List String → Except Error Unit
  | [] => .ok ()
  | name :: rest => do
    unless t.parameters.any fun p => p.name = name do
      throw (.invalidTemplate t.name (.undeclaredPlaceholder name))
    checkPlaceholders t rest

/-- Fails unless the template is well formed. -/
def validate (t : Template) : Except Error Unit := do
  unless isIdentifier t.name do throw (.invalidIdentifier t.name)
  checkParameters t [] t.parameters
  checkPlaceholders t t.placeholders

/-- The value of a parameter: the given one if its type takes it, where null for one that need not
be given stays null; and otherwise the default, or null if there is none. -/
def resolve (p : Parameter) (given : Option Value) : Except Error Value :=
  match given with
  | some value =>
    if value.isNull && !p.required then .ok .null
    else match p.type.accept value with
      | .ok taken => .ok taken
      | .error found => .error (.typeMismatch p.name p.type.describe found)
  | none => .ok ((p.default?.bind p.type.accept?).getD .null)

/-- The values of all parameters. -/
def resolveAll (given : Table Value) : Table Value → List Parameter → Except Error (Table Value)
  | done, [] => .ok done
  | done, p :: rest => do
    let value ← resolve p (Table.find? p.name given)
    resolveAll given (done.insert p.name value) rest

/-- The text of the script for resolved parameters. -/
def source (t : Template) (resolved : Table Value) : String :=
  substitute t.script fun name => (Table.find? name resolved).map Value.renderChars

/-- The script for given parameters. Parameters that are missing are reported first, then those
that are not declared, then those of the wrong type. -/
def instantiate (t : Template) (given : Table Value) : Except Error Script := do
  match t.parameters.find? fun p => p.required && !Table.contains p.name given with
  | some p => throw (.missingParameter t.name p.name)
  | none => pure ()
  match (Table.keys given).find? fun key => !t.parameters.any fun p => p.name = key with
  | some key => throw (.unknownParameter t.name key)
  | none => pure ()
  let resolved ← resolveAll given [] t.parameters
  let script ← (parse t.name (t.source resolved)).mapError Error.parse
  let parameters := (Value.object resolved).toJson.compact
  let metadata :=
    Table.insert "parameters" parameters (Table.insert "template" t.name script.metadata)
  return { script with metadata }

end Template

end Covenant
