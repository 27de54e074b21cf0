import LayeredConfig.Extension.Basic

/-!
# Frames

The state of one call of the evaluator: where it stands, the settings there, and the extensions
that have already matched at this node. Children start with none matched and without metadata;
everything else is handed down.
-/

namespace LayeredConfig

/-- The state of one call of the evaluator. -/
structure Frame (ι : Type) where
  source : Source
  extensions : List ι
  metadata : Metadata
  context : Context
  ancestors : List Position
  position : Position
  root : Json
  parent : Option Json
  visited : List ι

namespace Frame

variable {ι : Type}

/-- All positions from the root down to here. -/
def positions (frame : Frame ι) : List Position := frame.ancestors ++ [frame.position]

/-- The path of the node. -/
def path (frame : Frame ι) : String := Position.renderPath frame.positions

/-- The frame of a child at `position` of the raw container `parent`. -/
def child (frame : Frame ι) (position : Position) (parent : Json) : Frame ι :=
  { frame with
    metadata := .empty
    ancestors := frame.positions
    position := position
    parent := some parent
    visited := [] }

/-- The frame with settings changed. -/
def overridden (frame : Frame ι) (overrides : Overrides ι) : Frame ι :=
  { frame with
    metadata := overrides.metadata.elim frame.metadata frame.metadata.extended
    source := overrides.source.getD frame.source
    extensions := overrides.extensions.getD frame.extensions
    context := overrides.context.elim frame.context frame.context.extended }

/-- The frame after an extension has matched. -/
def visit (frame : Frame ι) (e : ι) : Frame ι := { frame with visited := frame.visited ++ [e] }

/-- What a transform is told about the node. -/
def input (frame : Frame ι) : Input ι where
  position := frame.position
  ancestors := frame.ancestors
  source := frame.source
  extensions := frame.extensions
  metadata := frame.metadata
  context := frame.context
  parent := frame.parent
  root := frame.root

variable [DecidableEq ι] (catalogue : Catalogue ι)

/-- Whether two handles count as one extension: they are equal, or both declare one identity. -/
def sameExtension (d e : ι) : Bool :=
  d == e ||
    match (catalogue d).identity, (catalogue e).identity with
    | some a, some b => a == b
    | _, _ => false

/-- Whether an extension has matched at this node already. -/
def hasVisited (frame : Frame ι) (e : ι) : Bool :=
  frame.visited.any fun seen => sameExtension catalogue seen e

/-- The first extension of the active list that has not matched yet and applies to the value. -/
def match? (frame : Frame ι) (value : Json) : Option (ι × Transform ι) :=
  (frame.extensions.filter fun e => !frame.hasVisited catalogue e).findSome? fun e =>
    ((catalogue e).applies value frame.position frame.ancestors frame.context).map fun t => (e, t)

end Frame

end LayeredConfig
