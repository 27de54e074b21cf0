import LayeredConfig.Node.Basic

/-!
# Literal trees

A value wrapped as it stands: every node has the same single source and the same metadata, and
its raw value is its value.
-/

namespace LayeredConfig

namespace Node

mutual

/-- The tree of a value, every node with the same source and metadata. -/
def literal (source : Source) (metadata : Metadata) : Json → Node
  | .array items =>
    .array ⟨[source], .array items, metadata⟩ (literalItems source metadata items)
  | .object members =>
    .object ⟨[source], .object members, metadata⟩ (literalMembers source metadata members)
  | value => .leaf ⟨[source], value, metadata⟩ value

/-- The trees of elements. -/
def literalItems (source : Source) (metadata : Metadata) : List Json → List Node
  | [] => []
  | item :: rest => literal source metadata item :: literalItems source metadata rest

/-- The trees of members. -/
def literalMembers (source : Source) (metadata : Metadata) :
    List (String × Json) → List (String × Node)
  | [] => []
  | (key, value) :: rest =>
    (key, literal source metadata value) :: literalMembers source metadata rest

end

theorem raw_literal (source : Source) (metadata : Metadata) (v : Json) :
    (literal source metadata v).raw = v := by
  cases v <;> simp [literal, raw]

theorem literalItems_eq_map (source : Source) (metadata : Metadata) (items : List Json) :
    literalItems source metadata items = items.map (literal source metadata) := by
  induction items with
  | nil => simp [literalItems]
  | cons item rest ih => simp [literalItems, ih]

theorem literalMembers_eq_mapValues (source : Source) (metadata : Metadata)
    (members : List (String × Json)) :
    literalMembers source metadata members =
      Members.mapValues (literal source metadata) members := by
  induction members with
  | nil => simp [literalMembers, Members.mapValues]
  | cons entry rest ih =>
      rw [literalMembers, ih]
      rfl

end Node

end LayeredConfig
