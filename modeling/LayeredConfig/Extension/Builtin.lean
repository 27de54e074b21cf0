import LayeredConfig.Extension.Basic
import LayeredConfig.Marker

/-!
# Ready-made extensions

Extensions that carry no meaning of their own: a directive bound to one key, the unescaping of
keys with a doubled marker, and the marking of all values below the root.
-/

namespace LayeredConfig

namespace Extension

variable {ι : Type}

/-- An extension of no identity. -/
def anonymous (applies : Json → Position → List Position → Context → Option (Transform ι)) :
    Extension ι :=
  ⟨none, applies⟩

/-- The same extension under an identity of its own. -/
def named (identity : String) (inner : Extension ι) : Extension ι :=
  { inner with identity := identity }

/-- Acts on the members whose key is exactly `name`, which is also its identity. -/
def keyDirective (name : String) (handler : Json → Transform ι) : Extension ι where
  identity := name
  applies value position _ _ := if position.isKey name then some (handler value) else none

/-- Evaluates the same value again, with metadata laid over that of its node. -/
def reparse (value : Json) (metadata : Metadata) : Transform ι := fun _ =>
  .evaluate value { metadata := metadata }

/-- The metadata of a member whose literal key is `name`. -/
def unescapedMetadata (name : String) : Metadata :=
  (Metadata.empty.set Metadata.renameKey (.string name)).set Metadata.fromEscapedDirective
    (.bool true)

/-- Makes keys with a doubled marker literal keys, and marks their nodes as unescaped. -/
def unescapeDirectives (marker : String) : Extension ι where
  identity := "unescape-directives"
  applies value position _ _ :=
    (position.key?.bind (Marker.literal? marker)).map fun name =>
      reparse value (unescapedMetadata name)

/-- Lays metadata over that of every node below the root. The root holds the layer and is left
unmarked, so that a filter on the mark can be used on what the layer is merged into. -/
def markAll (metadata : Metadata) : Extension ι where
  identity := none
  applies value position _ _ :=
    if position = .root then none else some (reparse value metadata)

/-- Marks every node below the root as a secret. -/
def markSecrets : Extension ι :=
  markAll (Metadata.empty.set Metadata.fromSecrets (.bool true))

end Extension

end LayeredConfig
