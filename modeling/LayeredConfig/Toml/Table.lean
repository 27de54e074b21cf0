import LayeredConfig.Json.Sorted

/-!
# Tables of a TOML document

A table remembers how it came about, because that decides what may still be added: a header may
return only to a table that longer headers implied, dotted keys only extend tables that dotted
keys made, and tables written inline are closed. Adding to a document is one walk along a path,
`within`, with a change at its end.
-/

namespace LayeredConfig

namespace Toml

/-- How a table came about: by a header of its own (as did the document and the elements of
arrays of tables), as a step of a longer header, or as a step of a dotted key. -/
inductive Origin where
  | header
  | implied
  | dotted
  deriving DecidableEq, Repr

/-- What a key of a table holds: a closed value, a table, or an array of tables, which is kept
with its last element first. -/
inductive Item where
  | value (v : Json)
  | table (origin : Origin) (entries : List (String × Item))
  | tables (elements : List (List (String × Item)))
  deriving Inhabited

/-- The entries of a table. -/
abbrev Entries := List (String × Item)

/-- Applies `change` to the table at the end of a path. Steps that are not there are made; an
array of tables is entered through its last element; a closed value cannot be entered, nor can
the path of a dotted key lead through a table with a header. -/
def within (dotted : Bool) (change : Origin → Entries → Option Entries) :
    (path : List String) → Origin → Entries → Option Entries
  | [], origin, entries => change origin entries
  | key :: path, _, entries =>
    match Members.get? key entries with
    | none =>
      let origin := if dotted then Origin.dotted else Origin.implied
      (within dotted change path origin []).map fun inner =>
        Members.insert key (.table origin inner) entries
    | some (.table origin inner) =>
      if dotted && origin = .header then none
      else (within dotted change path origin inner).map fun inner =>
        Members.insert key (.table origin inner) entries
    | some (.tables (last :: earlier)) =>
      (within dotted change path .header last).map fun last =>
        Members.insert key (.tables (last :: earlier)) entries
    | some (.tables []) | some (.value _) => none

/-- Sets a new key of a table. A dotted key ends in a table that dotted keys made, and only a
dotted key does. -/
def assign (path : List String) (key : String) (v : Json) : Origin → Entries → Option Entries :=
  within true (fun origin entries =>
    if (origin == .dotted) == path.isEmpty || (Members.get? key entries).isSome then none
    else some (Members.insert key (.value v) entries)) path

/-- Opens the table of a header. -/
def openTable (path : List String) (key : String) : Entries → Option Entries :=
  within false (fun _ entries =>
    match Members.get? key entries with
    | none => some (Members.insert key (.table .header []) entries)
    | some (.table .implied inner) => some (Members.insert key (.table .header inner) entries)
    | _ => none) path .header

/-- Opens a further element of an array of tables. -/
def openElement (path : List String) (key : String) : Entries → Option Entries :=
  within false (fun _ entries =>
    match Members.get? key entries with
    | none => some (Members.insert key (.tables [[]]) entries)
    | some (.tables elements) => some (Members.insert key (.tables ([] :: elements)) entries)
    | _ => none) path .header

mutual

/-- The value of an item. -/
def Item.toJson : Item → Json
  | .value v => v
  | .table _ entries => .object (entriesToJson entries)
  | .tables elements => .array (elementsToJson elements).reverse

/-- The values of the entries of a table. -/
def entriesToJson : List (String × Item) → List (String × Json)
  | [] => []
  | (key, item) :: rest => (key, item.toJson) :: entriesToJson rest

/-- The values of the elements of an array of tables, in the order in which they are kept. -/
def elementsToJson : List (List (String × Item)) → List Json
  | [] => []
  | entries :: rest => .object (entriesToJson entries) :: elementsToJson rest

end

end Toml

end LayeredConfig
