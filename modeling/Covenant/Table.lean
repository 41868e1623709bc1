/-!
# Tables

Association lists from strings in ascending order of their keys, each key once. Objects, registries,
metadata and bindings are such tables; their order is the order of code points, which is also the
order in which every listing and every JSON text shows them.

## Main definitions

* `Table.find?`, `Table.contains`, `Table.keys`, `Table.values`: reading.
* `Table.insert`, `Table.erase`: writing; an insertion under a present key replaces its value.
* `Table.ofList`: later entries win.
* `Table.Ascending`: the keys ascend strictly.
-/

namespace Covenant

/-- A list of keys with values, meant to ascend strictly in the keys. -/
abbrev Table (α : Type) := List (String × α)

namespace Table

variable {α β : Type}

/-- The value under a key. -/
def find? (key : String) : Table α → Option α
  | [] => none
  | (k, v) :: rest => if k = key then some v else find? key rest

/-- Whether a key is present. -/
def contains (key : String) (table : Table α) : Bool :=
  (find? key table).isSome

/-- The table with a value under a key, in place of the one that was there. -/
def insert (key : String) (value : α) : Table α → Table α
  | [] => [(key, value)]
  | (k, v) :: rest =>
    if key = k then (key, value) :: rest
    else if key < k then (key, value) :: (k, v) :: rest
    else (k, v) :: insert key value rest

/-- The table without a key. -/
def erase (key : String) : Table α → Table α
  | [] => []
  | (k, v) :: rest => if key = k then rest else (k, v) :: erase key rest

/-- The table of a list of entries; of entries with one key the last wins. -/
def ofList (entries : List (String × α)) : Table α :=
  entries.foldl (fun table entry => table.insert entry.1 entry.2) []

/-- The keys in order. -/
def keys (table : Table α) : List String :=
  table.map Prod.fst

/-- The values in the order of their keys. -/
def values (table : Table α) : List α :=
  table.map Prod.snd

/-- The keys ascend strictly, so each occurs once. -/
def Ascending (table : Table α) : Prop :=
  List.Pairwise (fun a b => a.1 < b.1) table

end Table

end Covenant
