import LayeredConfig.ConfigError
import LayeredConfig.Node.Basic

/-!
# Filtering trees

Keeping the nodes that a test accepts. A rejected node disappears with everything below it, and
with it the key or the element that held it in the raw value of its container.
-/

namespace LayeredConfig

namespace Json

/-- An object without some of its keys; other values are left alone. -/
def withoutKeys (v : Json) (keys : List String) : Json :=
  match v with
  | .object members => .object (keys.foldl (fun ms key => Members.erase key ms) members)
  | v => v

/-- An array without the elements that `keep` marks false. Other values, and arrays of another
length, are left alone. -/
def maskItems (v : Json) (keep : List Bool) : Json :=
  match v with
  | .array items =>
    if items.length = keep.length then
      .array (((items.zip keep).filter Prod.snd).map Prod.fst)
    else .array items
  | v => v

end Json

namespace Node

mutual

/-- A tree without the nodes below its root that `keep` rejects. The test sees every node as it
was before. -/
def pruned (keep : Node → Bool) : Node → Node
  | .leaf label value => .leaf label value
  | .array label items =>
    .array { label with raw := label.raw.maskItems (items.map keep) } (prunedItems keep items)
  | .object label members =>
    let rejected := (members.filter fun entry => !keep entry.2).map Prod.fst
    .object { label with raw := label.raw.withoutKeys rejected } (prunedMembers keep members)

/-- The elements that are kept. -/
def prunedItems (keep : Node → Bool) : List Node → List Node
  | [] => []
  | item :: rest =>
    if keep item then pruned keep item :: prunedItems keep rest else prunedItems keep rest

/-- The members that are kept. -/
def prunedMembers (keep : Node → Bool) : List (String × Node) → List (String × Node)
  | [] => []
  | (key, child) :: rest =>
    if keep child then (key, pruned keep child) :: prunedMembers keep rest
    else prunedMembers keep rest

end

/-- The tree without the nodes that `keep` rejects. It cannot reject the root. -/
def filterWhere (keep : Node → Bool) (n : Node) : Except ConfigError Node :=
  if keep n then .ok (n.pruned keep)
  else .error (.internal "clone_where cannot filter out the node it was called on")

theorem filterWhere_isOk_iff {keep : Node → Bool} {n : Node} :
    (∃ m, n.filterWhere keep = .ok m) ↔ keep n = true := by
  by_cases h : keep n <;> simp [filterWhere, h]

end Node

end LayeredConfig
