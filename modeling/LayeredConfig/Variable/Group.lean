import LayeredConfig.Json.Overlay
import LayeredConfig.Json.Sorted
import LayeredConfig.Text.Utf8
import LayeredConfig.Variable.Value

/-!
# Variables gathered into one value

All variables whose names start alike (letters of either case count as one) spell one object. What
follows the start of a name is its key; the separator and the point nest keys. Variables are laid
over one another in the order of the environment, and all keys come out sorted and in lower case.
-/

namespace LayeredConfig

namespace Variable

/-- What follows `start` in a name, the case of ASCII letters ignored. -/
def behindStart? : (start name : List Char) → Option (List Char)
  | [], name => some name
  | s :: start, c :: name => if s.toLower = c.toLower then behindStart? start name else none
  | _ :: _, [] => none

/-- The keys that a variable's name nests its value under, `none` when it belongs to no value: its
name does not start as asked, or one of the keys is empty. -/
def path? (start : String) (separator : Option String) (name : String) : Option (List String) := do
  let rest ← behindStart? start.toList (trimChars name.toList)
  let dotted ← match separator with
    | none => some (String.ofList rest)
    | some "" => none
    | some separator => some (".".intercalate ((String.ofList rest).splitOn separator))
  let keys := (trim dotted).splitOn "."
  if keys.any String.isEmpty then none else some (keys.map String.toLower)

/-- A value inside one object per key. -/
def nest (keys : List String) (v : Json) : Json :=
  keys.foldr (fun key inner => .object [(key, inner)]) v

/-- The object that variables spell, `none` when none of them belongs to it. -/
def gather? (start : String) (separator : Option String) (assignments : List (Bytes × Bytes)) :
    Option Json :=
  let layers := assignments.filterMap fun (name, content) =>
    (path? start separator (Utf8.decodeLossy name)).map fun keys =>
      nest keys (value (Utf8.decodeLossy content))
  if layers.isEmpty then none else some (Json.overlayAll (.object []) layers).sorted

end Variable

end LayeredConfig
