import LayeredConfig.Node.Basic
import LayeredConfig.Text.Digits
import LayeredConfig.Text.Segments

/-!
# Finding nodes

A path of segments leads down a tree: a segment names the member of an object or the element of
an array. The walk stops at the deepest container that the path reaches; only a leaf cannot be
walked past. Pointers are paths in one string, their segments behind slashes.
-/

namespace LayeredConfig

namespace Node

/-- The child that a segment leads to. Elements are found by their index in decimal digits, maybe
after a plus sign. -/
def child? (n : Node) (segment : String) : Option Node :=
  match n with
  | .object _ members => Members.get? segment members
  | .array _ items => (unsigned64? segment.toList).bind (items[·]?)
  | .leaf .. => none

/-- The node at a path. Empty segments are passed over; where a container has no child for a
segment, the walk ends at that container; a leaf with segments left gives nothing. -/
def property (n : Node) : List String → Option Node
  | [] => some n
  | segment :: rest =>
    if segment = "" then n.property rest
    else match n with
      | .leaf .. => none
      | n => match n.child? segment with
        | some child => child.property rest
        | none => some n

/-- A pointer segment with its escapes undone: first every `~1`, then every `~0`. -/
def unescapeSegment (segment : List Char) : String :=
  String.ofList (replacePair '~' '0' '~' (replacePair '~' '1' '/' segment))

/-- The segments of a pointer, a leading `#` left out. -/
def pointerSegments (pointer : String) : List String :=
  let path := match pointer.toList with
    | '#' :: rest => rest
    | chars => chars
  (segments '/' path).map unescapeSegment

/-- The node that a pointer leads to. -/
def select (n : Node) (pointer : String) : Option Node := n.property (pointerSegments pointer)

/-- The node at a path of keys, followed through objects alone. -/
def at? (n : Node) : List String → Option Node
  | [] => some n
  | key :: rest =>
    match n with
    | .object _ members =>
      match Members.get? key members with
      | some child => child.at? rest
      | none => none
    | _ => none

@[simp] theorem property_nil (n : Node) : n.property [] = some n := by simp [property]

@[simp] theorem at?_nil (n : Node) : n.at? [] = some n := by simp [at?]

end Node

end LayeredConfig
