/-!
# Positions

Where a node sits in the container that holds it, and how a stack of positions, the root first,
is written as a path.
-/

namespace LayeredConfig

/-- The root of an evaluated value, a member of an object or an element of an array. -/
inductive Position where
  | root
  | key (name : String)
  | index (n : Nat)
  deriving DecidableEq, Repr, Inhabited

namespace Position

/-- The key of an object member. -/
def key? : Position → Option String
  | .key name => some name
  | _ => none

/-- The index of an array element. -/
def index? : Position → Option Nat
  | .index n => some n
  | _ => none

/-- Whether this is the object member of exactly that name. -/
def isKey (p : Position) (name : String) : Bool := p.key? == some name

/-- One segment of a path. -/
def render : Position → String
  | .root => "#"
  | .key name => name
  | .index n => toString n

/-- The path of a stack of positions, such as `#/a/0/b`. The leading `#` is added where the
first segment does not read so already. -/
def renderPath (positions : List Position) : String :=
  let segments := positions.map render
  let path := "/".intercalate segments
  if segments.head? = some "#" then path else "#/" ++ path

theorem isKey_iff {p : Position} {name : String} : p.isKey name = true ↔ p = .key name := by
  cases p <;> simp [isKey, key?]

end Position

end LayeredConfig
