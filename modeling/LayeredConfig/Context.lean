import LayeredConfig.Json.Agreement

/-!
# Context of an evaluation

Ambient values that are handed down from the root to every node below it. A directive may lay
further entries over them for the part of the tree that it evaluates.
-/

namespace LayeredConfig

/-- The entries visible at a node. -/
structure Context where
  entries : Members Json
  deriving DecidableEq, Repr, Inhabited

namespace Context

/-- No entries. -/
def empty : Context := ⟨[]⟩

/-- The entry for a key. -/
def get? (c : Context) (key : String) : Option Json := c.entries.get? key

/-- A context with one entry set. -/
def set (c : Context) (key : String) (value : Json) : Context := ⟨c.entries.insert key value⟩

/-- Entries of `upper` laid over those of `c`, each replacing the whole entry of its key. -/
def extended (c upper : Context) : Context := ⟨c.entries.extend upper.entries⟩

/-- Whether there are no entries. -/
def isEmpty (c : Context) : Bool := c.entries.isEmpty

/-- Equality up to the order of entries. -/
def agrees (c other : Context) : Bool := c.entries.agree other.entries

theorem get?_set (c : Context) (key other : String) (value : Json) :
    (c.set key value).get? other = if key = other then some value else c.get? other :=
  Members.get?_insert key other value c.entries

@[simp] theorem extended_empty (c : Context) : c.extended empty = c := rfl

end Context

end LayeredConfig
