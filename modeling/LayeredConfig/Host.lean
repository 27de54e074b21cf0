import LayeredConfig.Text.Utf8

/-!
# The host

What a source may read from outside: the files below the current directory and the environment.
A host is a value, so reading is a function of it.
-/

namespace LayeredConfig

/-- The files below the current directory, by their relative paths, and the environment in its
order. Directories exist as far as files lie in them. -/
structure Host where
  files : List (String × Bytes)
  environment : List (String × Bytes)
  deriving Inhabited

namespace Host

/-- The segments of a relative path that name a file in `directory`, `none` when the path leads
out of the current directory, through something that is no directory, or ends on a directory.
Directories are given by their segments. -/
def resolve (directories : List (List String)) (directory : List String) :
    List String → Option (List String)
  | [] => none
  | [last] => if last = "" ∨ last = "." ∨ last = ".." then none else some (directory ++ [last])
  | segment :: rest =>
    if segment = "" ∨ segment = "." then resolve directories directory rest
    else if segment = ".." then
      if directory = [] then none else resolve directories directory.dropLast rest
    else
      let inner := directory ++ [segment]
      if inner ∈ directories then resolve directories inner rest else none

/-- The nonempty beginnings of a list, itself left out. -/
def properBeginnings : List String → List (List String)
  | [] | [_] => []
  | segment :: rest => [segment] :: (properBeginnings rest).map (segment :: ·)

/-- How many bytes a path may have. A longer one finds nothing, wherever it leads. -/
def longestPath : Nat := 4095

/-- The file at a path, `none` where there is no regular file. -/
def file? (host : Host) (path : String) : Option Bytes :=
  let files := host.files.map fun (name, content) =>
    ((name.splitOn "/").filter fun segment => segment ≠ "" ∧ segment ≠ ".", content)
  let directories := files.flatMap fun (segments, _) => properBeginnings segments
  if path.startsWith "/" ∨ path.utf8ByteSize > longestPath then none
  else (resolve directories [] (path.splitOn "/")).bind fun segments =>
    (files.reverse.find? fun file => file.1 = segments).map Prod.snd

/-- The environment as a block of entries `name=value`. -/
def block (host : Host) : List Bytes :=
  host.environment.map fun (name, value) => Utf8.encode name ++ Utf8.encode "=" ++ value

/-- An entry of the block, cut at its first equals sign behind its first byte. -/
def nameAndValue? : Bytes → Option (Bytes × Bytes)
  | [] => none
  | first :: rest =>
    match rest.dropWhile (· != '='.toUInt8) with
    | [] => none
    | _ :: value => some (first :: rest.takeWhile (· != '='.toUInt8), value)

/-- The names of all variables with their values, in the order of the environment. -/
def assignments (host : Host) : List (Bytes × Bytes) := host.block.filterMap nameAndValue?

/-- The value of a variable: what follows its name and an equals sign in the first entry that
starts so. No variable has an empty name. -/
def variableNamed? (host : Host) (name : String) : Option Bytes :=
  let start := Utf8.encode name ++ Utf8.encode "="
  if name = "" then none
  else (host.block.find? (start.isPrefixOf ·)).map (List.drop start.length)

end Host

end LayeredConfig
