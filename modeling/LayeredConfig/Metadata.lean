import LayeredConfig.Json.Agreement
import LayeredConfig.Json.Overlay

/-!
# Metadata of nodes

Every node of an evaluated tree carries a map beside its value. Directives use it to give the
evaluator instructions, and callers use it to tag nodes. Four keys are instructions to the object
that holds the node; they are taken off once they have been followed.
-/

namespace LayeredConfig

/-- The entries attached to a node, in the order in which their keys were first written. -/
structure Metadata where
  entries : Members Json
  deriving DecidableEq, Repr, Inhabited

namespace Metadata

/-- Instruction: the member replaces the object that holds it. -/
def shouldFlatten : String := "should_flatten"

/-- Instruction: the member's own members go under those of the object that holds it. -/
def shouldMerge : String := "should_merge"

/-- Instruction: the member's own members go over those of the object that holds it. -/
def shouldOverride : String := "should_override"

/-- Instruction: the member is kept under the key that this entry names. -/
def renameKey : String := "rewrite_key"

/-- Mark of a member whose key was written with a doubled marker. -/
def fromEscapedDirective : String := "from_escaped_directive"

/-- Mark of what came from a layer of secrets. -/
def fromSecrets : String := "from_secrets"

/-- The keys that are instructions. -/
def instructions : List String := [shouldFlatten, shouldMerge, shouldOverride, renameKey]

/-- No entries. -/
def empty : Metadata := ⟨[]⟩

/-- Metadata with one entry set. -/
def set (m : Metadata) (key : String) (value : Json) : Metadata := ⟨m.entries.insert key value⟩

/-- The entry for a key. -/
def get? (m : Metadata) (key : String) : Option Json := m.entries.get? key

/-- Whether the entry is the boolean `true`. -/
def flag (m : Metadata) (key : String) : Bool := m.get? key == some (.bool true)

/-- Metadata without the entry for a key. -/
def erase (m : Metadata) (key : String) : Metadata := ⟨m.entries.erase key⟩

/-- Whether there are no entries. -/
def isEmpty (m : Metadata) : Bool := m.entries.isEmpty

/-- Entries of `upper` laid over those of `m`, each replacing the whole entry of its key. -/
def extended (m upper : Metadata) : Metadata := ⟨m.entries.extend upper.entries⟩

/-- Entries of `upper` laid over those of `m` as values: objects under one key combine. -/
def merged (m upper : Metadata) : Metadata :=
  ⟨Json.overlayMembers m.entries upper.entries⟩

/-- Metadata without its instructions. -/
def withoutInstructions (m : Metadata) : Metadata := instructions.foldl erase m

/-- Equality up to the order of entries. -/
def agrees (m other : Metadata) : Bool := m.entries.agree other.entries

@[simp] theorem get?_empty (key : String) : empty.get? key = none := rfl

theorem get?_set (m : Metadata) (key other : String) (value : Json) :
    (m.set key value).get? other = if key = other then some value else m.get? other :=
  Members.get?_insert key other value m.entries

theorem flag_eq_true_iff {m : Metadata} {key : String} :
    m.flag key = true ↔ m.get? key = some (.bool true) := by simp [flag]

@[simp] theorem extended_empty (m : Metadata) : m.extended empty = m := rfl

@[simp] theorem merged_empty (m : Metadata) : m.merged empty = m := by simp [merged, empty]

end Metadata

end LayeredConfig
