/-!
# Failures of configuration

What can go wrong while sources are read, values evaluated and trees checked. A failure keeps
its cause as data; `ConfigError.message` is the one place where wording lives. Only `notFound` is
recoverable: layers and fallbacks skip what is merely missing.
-/

namespace LayeredConfig

/-- Why a text or a file was not understood. The words of foreign readers are not part of a
message; a fixed placeholder stands for them. -/
inductive Cause where
  | json
  | toml
  | notUnicodeVariable
  | notUnicodeFile
  | gathering
  | unsupportedExtension
  | custom (message : String)
  deriving DecidableEq, Repr, Inhabited

/-- The text of a cause. -/
def Cause.message : Cause → String
  | .json => "<json error>"
  | .toml => "<toml error>"
  | .notUnicodeVariable => "<env error>"
  | .notUnicodeFile => "<io error>"
  | .gathering => "<gathering error>"
  | .unsupportedExtension => "unsupported configuration file extension"
  | .custom message => message

/-- A failure. -/
inductive ConfigError where
  /-- A source that is not there. -/
  | notFound (origin message : String)
  /-- A text that does not read as what it should be. -/
  | parse (origin : String) (cause : Cause)
  /-- A file that is there but cannot be used. -/
  | file (path : String) (cause : Cause)
  /-- Variables that cannot be gathered into one value. -/
  | gathering (cause : Cause)
  /-- A key that starts with the marker of directives and that nothing consumed. -/
  | reservedKey (key path : String)
  /-- An instruction or a call that contradicts itself. -/
  | internal (message : String)
  /-- A failure raised by a directive. -/
  | extension (name : String) (cause : Cause)
  /-- Several failures reported as one. -/
  | aggregate (errors : List ConfigError)
  deriving Repr, Inhabited

namespace ConfigError

/-- The kinds of failures. -/
inductive Kind where
  | notFound
  | parse
  | file
  | gathering
  | reservedKey
  | internal
  | extension
  | aggregate
  deriving DecidableEq, Repr

/-- The kind of a failure. -/
def kind : ConfigError → Kind
  | .notFound .. => .notFound
  | .parse .. => .parse
  | .file .. => .file
  | .gathering .. => .gathering
  | .reservedKey .. => .reservedKey
  | .internal .. => .internal
  | .extension .. => .extension
  | .aggregate .. => .aggregate

/-- Whether the failure says only that something is missing. -/
def isNotFound (e : ConfigError) : Bool := e.kind == .notFound

/-- The cause below the failure, where one is kept. -/
def cause? : ConfigError → Option Cause
  | .parse _ cause | .file _ cause | .gathering cause | .extension _ cause => some cause
  | _ => none

/-- The failures inside an aggregate. -/
def errors? : ConfigError → Option (List ConfigError)
  | .aggregate errors => some errors
  | _ => none

/-- Texts on numbered lines, counting from `number`. -/
def numbered (number : Nat) : List String → List String
  | [] => []
  | line :: rest => (toString number ++ ": " ++ line) :: numbered (number + 1) rest

mutual

/-- The text of a failure. -/
def message : ConfigError → String
  | .notFound origin message => origin ++ " not found: " ++ message
  | .parse origin cause => "Failed to parse " ++ origin ++ ": " ++ cause.message
  | .file path cause => "Configuration file error in '" ++ path ++ "': " ++ cause.message
  | .gathering cause => "Failed to gather configuration: " ++ cause.message
  | .reservedKey key path =>
    "Reserved key '" ++ key ++ "' found at " ++ path ++ "; escape it by doubling the marker"
  | .internal message => "Internal consistency error: " ++ message
  | .extension name cause => "Extension '" ++ name ++ "' failed: " ++ cause.message
  | .aggregate errors =>
    "multiple configuration errors:\n" ++ "\n".intercalate (numbered 1 (messages errors))

/-- The texts of failures. -/
def messages : List ConfigError → List String
  | [] => []
  | e :: rest => e.message :: messages rest

end

/-- The text of a list of failures: one numbered line each. -/
def listing (errors : List ConfigError) : String := "\n".intercalate (numbered 1 (messages errors))

/-- Several failures as one; none for no failure. One failure stands for itself unless somebody
else holds on to it (`shared`), in which case it stays wrapped. -/
def tryAggregate (errors : List ConfigError) (shared : Bool) : Option ConfigError :=
  match errors with
  | [] => none
  | [e] => some (if shared then .aggregate [e] else e)
  | errors => some (.aggregate errors)

theorem tryAggregate_eq_none_iff {errors : List ConfigError} {shared : Bool} :
    tryAggregate errors shared = none ↔ errors = [] := by
  match errors with
  | [] => simp [tryAggregate]
  | [_] => simp [tryAggregate]
  | _ :: _ :: _ => simp [tryAggregate]

end ConfigError

end LayeredConfig
