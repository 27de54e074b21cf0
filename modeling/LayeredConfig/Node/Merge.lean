import LayeredConfig.Node.Basic

/-!
# Merging trees

Layers of configuration are evaluated one by one and folded from the left. Two objects merge
member by member, the lower layer's keys first; of any other pair the upper node stays as it is.
Metadata always combines.
-/

namespace LayeredConfig

namespace Node

mutual

/-- The tree `lower` under the tree `upper`. -/
def merge : (lower upper : Node) → Node
  | .object a members, .object b others =>
    .object ⟨a.sources ++ b.sources, a.raw.overlay b.raw, a.metadata.merged b.metadata⟩
      (mergeMembers members others)
  | lower, upper => upper.withMetadata (lower.metadata.merged upper.metadata)

/-- The members of the lower tree, each under the upper one's member of the same key, and behind
them the members that only the upper tree has. -/
def mergeMembers : (lower upper : List (String × Node)) → List (String × Node)
  | [], others => others
  | (key, child) :: rest, others =>
    match Members.get? key others with
    | some other => (key, merge child other) :: mergeMembers rest (Members.erase key others)
    | none => (key, child) :: mergeMembers rest others

end

/-- Layers folded from the left, later ones on top; none for no layer. -/
def mergeAll : List Node → Option Node
  | [] => none
  | first :: rest => some (rest.foldl merge first)

theorem merge_object (a b : Label) (members others : List (String × Node)) :
    merge (.object a members) (.object b others) =
      .object ⟨a.sources ++ b.sources, a.raw.overlay b.raw, a.metadata.merged b.metadata⟩
        (mergeMembers members others) := by simp [merge]

/-- Unless both are objects, the upper node stays, with the metadata of both. -/
theorem merge_of_not_object {lower upper : Node} (h : (lower.isObject && upper.isObject) = false) :
    merge lower upper = upper.withMetadata (lower.metadata.merged upper.metadata) := by
  cases lower <;> cases upper <;> simp_all [merge, isObject]

@[simp] theorem metadata_merge (lower upper : Node) :
    (merge lower upper).metadata = lower.metadata.merged upper.metadata := by
  cases lower <;> cases upper <;> simp [merge, Node.metadata, withMetadata]

theorem mergeAll_append_singleton (layers : List Node) (last : Node) :
    mergeAll (layers ++ [last]) =
      match mergeAll layers with
      | some folded => some (merge folded last)
      | none => some last := by
  cases layers with
  | nil => rfl
  | cons first rest => simp [mergeAll, List.foldl_append]

end Node

end LayeredConfig
