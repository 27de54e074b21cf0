import LayeredConfig.Json.Overlay
import LayeredConfig.Json.Reader
import LayeredConfig.Source.Basic
import LayeredConfig.Toml.Reader
import LayeredConfig.Variable.Group

/-!
# Logged sources

`Source.readValue` gives the value of a source; `Source.read` gives it together with its origin,
the source that the value is attributed to: for a fallback, the origin of the member that
answered, and for every other source the source itself. A fallback goes on past members that are
missing and stops at any other failure; a combination needs all of its members.
-/

namespace LayeredConfig

/-- The extension of the last segment of a path: what follows its last point, provided that the
point is not its first character. -/
def fileExtension? (path : String) : Option String :=
  let name := (path.splitOn "/").getLastD ""
  match (name.splitOn ".").reverse with
  | last :: first :: more => if more.isEmpty && first.isEmpty then none else some last
  | _ => none

namespace Source

/-- The value of a file, in the format that its extension names in letters of either case. -/
def readFile (host : Host) (path : String) : Logged Json :=
  match host.file? path with
  | none => .fail (.notFound ("file " ++ path) "file does not exist")
  | some content => do
    Logged.report (.fileOpened path)
    match Utf8.decode? content with
    | none => .fail (.file path .notUnicodeFile)
    | some text =>
      match (fileExtension? path).map String.toLower with
      | some "json" =>
        match Json.parse text with
        | .ok v => .ok v
        | .error _ => .fail (.file path .json)
      | some "toml" =>
        match Toml.parse text with
        | some v => .ok v
        | none => .fail (.file path .toml)
      | _ => .fail (.file path .unsupportedExtension)

/-- The value of an environment variable. -/
def readVariable (host : Host) (name : String) (format : VariableFormat) : Logged Json :=
  let origin := "environment variable " ++ name
  match host.variableNamed? name with
  | none => .fail (.notFound origin "variable is not set")
  | some content =>
    match Utf8.decode? content with
    | none => .fail (.parse origin .notUnicodeVariable)
    | some text =>
      match format with
      | .json =>
        match Json.parse text with
        | .ok v => .ok v
        | .error _ => .fail (.parse origin .json)
      | .toml =>
        match Toml.parse text with
        | some v => .ok v
        | none => .fail (.parse origin .toml)
      | .raw => .ok (.string text)

/-- The value of the environment variables whose names start alike. -/
def readVariables (host : Host) (start : String) (separator : Option String) : Logged Json :=
  match Variable.gather? start separator host.assignments with
  | some v => .ok v
  | none =>
    .fail (.notFound ("environment variables prefixed " ++ start) "no variable carries the prefix")

mutual

/-- The value of a source. -/
def readValue (host : Host) : Source → Logged Json
  | .literal _ v => .ok v
  | .file _ path => readFile host path
  | .variable _ name format => readVariable host name format
  | .variables _ start separator => readVariables host start separator
  | .fallback id members => firstValue host (describe (.fallback id members)) members
  | .combined id members => combinedValue host (describe (.combined id members)) members
  | .custom _ _ value => Logged.ofExcept (value host)

/-- The value of the first of a fallback's members that is not missing. -/
def firstValue (host : Host) (origin : String) : List Source → Logged Json
  | [] => .fail (.notFound origin "no source in the chain produced a value")
  | s :: rest => (readValue host s).orElseMissing s.describe fun _ => firstValue host origin rest

/-- The values of a combination's members laid over one another. -/
def combinedValue (host : Host) (origin : String) : List Source → Logged Json
  | [] => .fail (.notFound origin "no sources to combine")
  | s :: rest => do
    let base ← readValue host s
    valueOver host base rest

/-- A value with the values of sources laid over it in turn. -/
def valueOver (host : Host) (base : Json) : List Source → Logged Json
  | [] => .ok base
  | s :: rest => do
    let layer ← readValue host s
    valueOver host (base.overlay layer) rest

end

mutual

/-- The value of a source and the source that it is attributed to. -/
def read (host : Host) : Source → Logged (Json × Source)
  | .fallback id members => firstRead host (describe (.fallback id members)) members
  | s => do
    let v ← readValue host s
    pure (v, s)

/-- What the first of a fallback's members that is not missing gives. -/
def firstRead (host : Host) (origin : String) : List Source → Logged (Json × Source)
  | [] => .fail (.notFound origin "no source in the chain produced a value")
  | s :: rest => (read host s).orElseMissing s.describe fun _ => firstRead host origin rest

end

end Source

end LayeredConfig
