import LayeredConfig.Host
import LayeredConfig.Json.Basic
import LayeredConfig.Logged

/-!
# Sources

A source knows where configuration comes from. Each carries an identity, and only the identity
tells two sources apart: two literals of the same value are two sources. Nodes of evaluated trees
carry the sources that produced them.
-/

namespace LayeredConfig

/-- How the text of a variable is understood. -/
inductive VariableFormat where
  | json
  | toml
  | raw
  deriving DecidableEq, Repr, Inhabited

/-- A place that configuration is read from. -/
inductive Source where
  /-- A fixed value. -/
  | literal (id : Nat) (value : Json)
  /-- A file in a format that its extension names. -/
  | file (id : Nat) (path : String)
  /-- One environment variable. -/
  | variable (id : Nat) (name : String) (format : VariableFormat)
  /-- All environment variables whose names start alike, nested at the separator. -/
  | variables (id : Nat) (start : String) (separator : Option String)
  /-- The first of its members that is not missing. -/
  | fallback (id : Nat) (members : List Source)
  /-- All members, later ones laid over earlier ones. -/
  | combined (id : Nat) (members : List Source)
  /-- A source of the caller's own making. -/
  | custom (id : Nat) (description : String) (value : Host → Except ConfigError Json)
  deriving Inhabited

namespace Source

/-- The types of sources. -/
inductive Kind where
  | literal
  | file
  | variable
  | variables
  | fallback
  | combined
  | custom
  deriving DecidableEq, Repr

/-- The type of a source. -/
def kind : Source → Kind
  | .literal .. => .literal
  | .file .. => .file
  | .variable .. => .variable
  | .variables .. => .variables
  | .fallback .. => .fallback
  | .combined .. => .combined
  | .custom .. => .custom

/-- The identity of a source. -/
def id : Source → Nat
  | .literal id _ | .file id _ | .variable id _ _ | .variables id _ _ | .fallback id _
  | .combined id _ | .custom id _ _ => id

/-- Whether two handles are handles of one source. -/
def sameAs (s t : Source) : Bool := s.id == t.id

/-- The path of a file source. -/
def path? : Source → Option String
  | .file _ path => some path
  | _ => none

mutual

/-- What a source is called in messages and events. -/
def describe : Source → String
  | .literal .. => "literal value"
  | .file _ path => "file " ++ path
  | .variable _ name _ => "environment variable " ++ name
  | .variables _ start _ => "environment variables prefixed " ++ start
  | .fallback _ members => "first of [" ++ ", ".intercalate (describeAll members) ++ "]"
  | .combined _ members => "combination of [" ++ ", ".intercalate (describeAll members) ++ "]"
  | .custom _ description _ => description

/-- What the members of a source are called. -/
def describeAll : List Source → List String
  | [] => []
  | s :: rest => s.describe :: describeAll rest

end

theorem sameAs_refl (s : Source) : s.sameAs s = true := by simp [sameAs]

theorem sameAs_iff {s t : Source} : s.sameAs t = true ↔ s.id = t.id := by simp [sameAs]

end Source

end LayeredConfig
