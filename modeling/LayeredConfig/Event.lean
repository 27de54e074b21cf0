/-!
# Events

What is reported while sources are read and values evaluated. Every event has a level, a fixed
message and named fields.
-/

namespace LayeredConfig

/-- Something worth reporting. Paths are written with their leading `#`; a source is given by
its description. -/
inductive Event where
  | extensionMatched (path extension : String)
  | memberFlattens (path key : String)
  | memberRenamed (path key target : String)
  | mergeDemoted (path key : String)
  | keysDiscarded (path : String) (count : Nat)
  | severalFlattened (path : String) (count : Nat)
  | sourceLoaded (source : String)
  | layerSkipped (source : String)
  | fileOpened (path : String)
  | memberMissing (source : String)
  deriving DecidableEq, Repr

namespace Event

/-- How loud an event is. -/
inductive Level where
  | trace
  | debug
  | warn
  deriving DecidableEq, Repr

/-- The name of a level. -/
def Level.render : Level → String
  | .trace => "TRACE"
  | .debug => "DEBUG"
  | .warn => "WARN"

/-- The level of an event: what loses keys is a warning, what moves a member is a trace. -/
def level : Event → Level
  | .memberFlattens .. | .memberRenamed .. | .mergeDemoted .. => .trace
  | .keysDiscarded .. | .severalFlattened .. => .warn
  | _ => .debug

/-- The fixed text of an event. -/
def message : Event → String
  | .extensionMatched .. => "extension matched"
  | .memberFlattens .. => "member flattens its parent"
  | .memberRenamed .. => "member rewrites its key"
  | .mergeDemoted .. => "non-object merge demoted to flatten"
  | .keysDiscarded .. => "object was flattened; its other keys are discarded"
  | .severalFlattened .. =>
    "several members requested to flatten the same object; using the first"
  | .sourceLoaded .. => "loaded configuration source"
  | .layerSkipped .. => "skipping missing layer"
  | .fileOpened .. => "reading configuration file"
  | .memberMissing .. => "source missing, trying next"

/-- The fields of an event, in the order in which they are written. -/
def fields : Event → List (String × String)
  | .extensionMatched path extension => [("path", path), ("extension", extension)]
  | .memberFlattens path key | .mergeDemoted path key => [("path", path), ("key", key)]
  | .memberRenamed path key target => [("path", path), ("key", key), ("rewritten_to", target)]
  | .keysDiscarded path count => [("path", path), ("discarded", toString count)]
  | .severalFlattened path count => [("path", path), ("candidates", toString count)]
  | .sourceLoaded source | .layerSkipped source | .memberMissing source => [("source", source)]
  | .fileOpened path => [("path", path)]

/-- One line for an event: level, message and fields, separated by bars. -/
def render (event : Event) : String :=
  let fields := event.fields.map fun (name, value) => name ++ "=" ++ value
  "|".intercalate (event.level.render :: event.message :: fields)

end Event

end LayeredConfig
