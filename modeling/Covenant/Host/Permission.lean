/-!
# Permissions

Permissions are texts. A set of them is kept as a list in ascending order without repetition, so
that two sets with the same members are the same list.

## Main definitions

* `Permissions.grant`: one more permission.
* `Permissions.allows`: membership.
* `Permissions.ofList`: the set of a list's members.
-/

namespace Covenant

/-- A set of permissions, in ascending order. -/
structure Permissions where
  names : List String
deriving Repr, DecidableEq

namespace Permissions

/-- No permission. -/
def none : Permissions := ⟨[]⟩

/-- Inserts a text into an ascending list, unless it is there. -/
def insertInto (name : String) : List String → List String
  | [] => [name]
  | n :: rest =>
    if name = n then n :: rest
    else if name < n then name :: n :: rest
    else n :: insertInto name rest

/-- The set with one more permission. -/
def grant (p : Permissions) (name : String) : Permissions :=
  ⟨insertInto name p.names⟩

/-- Whether a permission has been granted. -/
def allows (p : Permissions) (name : String) : Bool :=
  p.names.contains name

/-- The set of the members of a list. -/
def ofList (names : List String) : Permissions :=
  names.foldl grant none

end Permissions

end Covenant
