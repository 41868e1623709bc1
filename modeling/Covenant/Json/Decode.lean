import Covenant.Json.Basic

/-!
# Taking documents apart

The rules by which documents are read as records and choices. A record is an object whose members
may come in any order, each at most once, with further members ignored; or an array of its members
in order. A choice without content is its name, and one with content is an object with that single
member.

A document may have to be set aside until it is known what it is to be read as. Then an empty object
is as good as null for the content of a choice that has none.

## Main definitions

* `Record`, `Json.members?`, `Json.record?`: the members of a record.
* `Record.required?`, `Record.optional?`, `Record.defaulted?`: a member by name.
* `Json.choice?`, `Json.plainChoice?`: choices.
* `Json.text?`, `Json.flag?`, `Json.natural?`, `Json.list?`: scalars and lists.
* `Json.depth`: the nesting of a document.
* `Json.readable`: whether all of a document can be read.
-/

namespace Covenant

/-- The members of a record, as far as they are given. -/
structure Record where
  /-- Whether the members were given by position. -/
  positional : Bool
  members : List (String × Json)

namespace Json

mutual

/-- The number of arrays and objects around the innermost place. -/
def depth : Json → Nat
  | array items => depthItems items + 1
  | object members => depthMembers members + 1
  | _ => 0

/-- The greatest nesting among items. -/
def depthItems : List Json → Nat
  | [] => 0
  | item :: rest => max item.depth (depthItems rest)

/-- The greatest nesting among members. -/
def depthMembers : List (String × Json) → Nat
  | [] => 0
  | (_, value) :: rest => max value.depth (depthMembers rest)

end

mutual

/-- Whether all of a document can be read. -/
def readable : Json → Bool
  | array items => readableItems items
  | object members => readableMembers members
  | unreadable => false
  | _ => true

/-- Whether all items can be read. -/
def readableItems : List Json → Bool
  | [] => true
  | item :: rest => item.readable && readableItems rest

/-- Whether all members can be read. -/
def readableMembers : List (String × Json) → Bool
  | [] => true
  | (_, value) :: rest => value.readable && readableMembers rest

end

/-- Whether no text occurs twice in a list. -/
def keysDistinct : List String → Bool
  | [] => true
  | key :: rest => !rest.contains key && keysDistinct rest

/-- The members with these names of an object, in any order. -/
def members? (names : List String) : Json → Option Record
  | object members =>
    let known := members.filter fun member => names.contains member.1
    if keysDistinct (Table.keys known) then some ⟨false, known⟩ else none
  | _ => none

/-- The members of a record with these names, given by name or by position. -/
def record? (names : List String) : Json → Option Record
  | array items => if items.length ≤ names.length then some ⟨true, names.zip items⟩ else none
  | j => j.members? names

/-- A choice: its name, and its content if it has any. -/
def choice? : Json → Option (String × Option Json)
  | string name => some (name, none)
  | object [(name, content)] => some (name, some content)
  | _ => none

/-- A choice without content; null counts as none, and so does an empty object that was set
aside. -/
def plainChoice? (aside : Bool) (j : Json) : Option String :=
  match j.choice? with
  | some (name, none) => some name
  | some (name, some null) => some name
  | some (name, some (object [])) => if aside then some name else none
  | _ => none

/-- The text of a string. -/
def text? : Json → Option String
  | string text => some text
  | _ => none

/-- The flag of a boolean. -/
def flag? : Json → Option Bool
  | boolean flag => some flag
  | _ => none

/-- A natural number below a bound. -/
def natural? (bound : Nat) : Json → Option Nat
  | integer n => if 0 ≤ n ∧ n < bound then some n.toNat else none
  | _ => none

/-- A list, each item of which is read in the same way. -/
def list? {α : Type} (item? : Json → Option α) : Json → Option (List α)
  | array items => items.mapM item?
  | _ => none

/-- Something or null. -/
def nullable? {α : Type} (value? : Json → Option α) : Json → Option (Option α)
  | null => some none
  | j => (value? j).map some

end Json

namespace Record

variable {α : Type}

/-- A member that must be given. -/
def required? (r : Record) (name : String) (value? : Json → Option α) : Option α :=
  (Table.find? name r.members).bind value?

/-- A member that may be null, or be left out unless members are given by position. -/
def optional? (r : Record) (name : String) (value? : Json → Option α) : Option (Option α) :=
  match Table.find? name r.members with
  | some j => j.nullable? value?
  | none => if r.positional then none else some none

/-- A member with a value of its own if it is left out. -/
def defaulted? (r : Record) (name : String) (default : α) (value? : Json → Option α) : Option α :=
  match Table.find? name r.members with
  | some j => value? j
  | none => some default

end Record

end Covenant
