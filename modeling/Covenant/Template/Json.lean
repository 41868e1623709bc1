import Covenant.Template.Basic

/-!
# Templates as JSON

A template is a record of which only the name and the script text must be given.

## Main definitions

* `Template.toJson`, `Template.ofJson?`, `Template.parseJson?`.
-/

namespace Covenant

/-- The document of a parameter type. -/
def ParameterType.toJson : ParameterType → Json
  | .select options => .object [("select", .array (options.map .string))]
  | type => .string type.describe

/-- The parameter type of a document. -/
def ParameterType.ofJson? (j : Json) : Option ParameterType :=
  match j.plainChoice? false with
  | some name =>
    [string, number, integer, boolean, object, array, address, date].find? fun type =>
      type.describe = name
  | none =>
    match j.choice? with
    | some ("select", some options) => (options.list? Json.text?).map select
    | _ => none

/-- The document of a parameter; a default is written only if there is one. -/
def Parameter.toJson (p : Parameter) : Json :=
  .object ([
    ("name", .string p.name),
    ("type", p.type.toJson),
    ("description", .string p.description),
    ("required", .boolean p.required)] ++
    (p.default?.map fun value => ("default", value.toJson)).toList)

/-- The parameter of a document. -/
def Parameter.ofJson? (j : Json) : Option Parameter := do
  let r ← j.record? ["name", "type", "description", "required", "default"]
  return {
    name := ← r.required? "name" Json.text?
    type := ← r.required? "type" ParameterType.ofJson?
    description := ← r.defaulted? "description" "" Json.text?
    required := ← r.defaulted? "required" false Json.flag?
    default? := ← r.defaulted? "default" none (Json.nullable? Value.ofJson?) }

namespace Template

/-- The document of a template; documentation is written only if there is some. -/
def toJson (t : Template) : Json :=
  .object ([
    ("name", .string t.name),
    ("description", .string t.description),
    ("parameters", .array (t.parameters.map Parameter.toJson)),
    ("script_template", .string t.script)] ++
    (t.documentation.map fun text => ("documentation", Json.string text)).toList ++
    [("tags", .array (t.tags.map .string))])

/-- The template of a document. -/
def ofJson? (j : Json) : Option Template := do
  let r ← j.record? [
    "name", "description", "parameters", "script_template", "documentation", "tags"]
  return {
    name := ← r.required? "name" Json.text?
    description := ← r.defaulted? "description" "" Json.text?
    parameters := ← r.defaulted? "parameters" [] (Json.list? Parameter.ofJson?)
    script := ← r.required? "script_template" Json.text?
    documentation := ← r.defaulted? "documentation" none (Json.nullable? Json.text?)
    tags := ← r.defaulted? "tags" [] (Json.list? Json.text?) }

/-- The template that a JSON text writes. -/
def parseJson? (text : String) : Option Template :=
  (Json.parse? text).bind ofJson?

end Template

end Covenant
