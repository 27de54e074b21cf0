import LayeredConfig.ConfigError
import LayeredConfig.Marker
import LayeredConfig.Node.Traversal

/-!
# Reserved keys

Keys that start with the marker of directives must have been consumed by evaluation. What is left
of them in a tree is a violation, unless the key was written with a doubled marker and unescaped.
-/

namespace LayeredConfig

namespace ReservedKeys

/-- The marker of directives, unless a caller chooses another. -/
def defaultMarker : String := "$"

/-- Whether a member violates the reservation: its key starts with the marker and its node is not
marked as unescaped. -/
def violates (marker : String) (entry : String × Node) : Bool :=
  Marker.starts marker entry.1 && !entry.2.metadata.flag Metadata.fromEscapedDirective

/-- The keys of violating members, with the positions of the objects that hold them: objects in
depth-first order, keys in the order of their object. -/
def violations (marker : String) (n : Node) : List (String × List Position) :=
  n.entries.flatMap fun (path, node) =>
    ((node.members?.getD []).filter (violates marker)).map fun entry => (entry.1, path)

/-- Fails with all violations of a tree. Without a marker nothing is reserved. -/
def validate (marker : String) (n : Node) : Except ConfigError Unit :=
  if marker = "" then .ok ()
  else
    let errors := (violations marker n).map fun (key, path) =>
      ConfigError.reservedKey key (Position.renderPath path)
    match ConfigError.tryAggregate errors false with
    | none => .ok ()
    | some e => .error e

end ReservedKeys

end LayeredConfig
