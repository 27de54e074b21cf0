import Mathlib.Data.List.Induction
import LayeredConfig.Node.Navigation
import LayeredConfig.Proofs.Merge.Values

/-!
# Which layer a node of a fold comes from

Paths of keys are followed through objects alone. What a merged tree holds at a path is told by the
two trees there and by where the upper tree's way down the path ends: a tree that reaches the path
is on top of whatever is below it (`at?_merge_of_some`), one whose way ends at an object leaves the
path as it is, and one whose way ends at anything else cuts it off (`at?_merge_of_none`). The main
statement, `last_layer_decides`, carries this through a fold: what is no object at its path comes
from the last layer that reaches the path, but for its metadata.
-/

namespace LayeredConfig

namespace Node

/-- The node that the way down a path ends at: the node at the path, or the last one on the way. -/
def deepest (n : Node) : List String → Node
  | [] => n
  | key :: rest =>
    match n with
    | .object label members =>
      match Members.get? key members with
      | some child => child.deepest rest
      | none => .object label members
    | n => n

/-! ### Following keys -/

theorem at?_object_cons (label : Label) (members : List (String × Node)) (key : String)
    (rest : List String) :
    (object label members).at? (key :: rest) =
      (Members.get? key members).bind fun child => child.at? rest := by
  rw [at?]
  cases Members.get? key members <;> rfl

theorem at?_cons_of_not_object {n : Node} (h : n.isObject = false) (key : String)
    (rest : List String) : n.at? (key :: rest) = none := by
  cases n with
  | object label members => cases h
  | _ =>
      rw [at?]
      intro _ _ heq
      cases heq

theorem at?_withMetadata_cons (n : Node) (metadata : Metadata) (key : String)
    (rest : List String) : (n.withMetadata metadata).at? (key :: rest) = n.at? (key :: rest) := by
  cases n with
  | object label members => exact (at?_object_cons ..).trans (at?_object_cons ..).symm
  | _ => rw [at?_cons_of_not_object rfl, at?_cons_of_not_object rfl]

@[simp] theorem deepest_nil (n : Node) : n.deepest [] = n := by rw [deepest]

theorem deepest_object_cons (label : Label) (members : List (String × Node)) (key : String)
    (rest : List String) :
    (object label members).deepest (key :: rest) =
      (Members.get? key members).elim (object label members) fun child => child.deepest rest := by
  rw [deepest]
  cases Members.get? key members <;> rfl

theorem deepest_cons_of_not_object {n : Node} (h : n.isObject = false) (key : String)
    (rest : List String) : n.deepest (key :: rest) = n := by
  cases n with
  | object label members => cases h
  | _ => rw [deepest]; exact nofun

/-! ### Two trees -/

/-- Looking a key up in matched members. Neither list needs to be a map. -/
theorem get?_mergeMembers (key : String) (members others : List (String × Node)) :
    Members.get? key (mergeMembers members others) =
      (Members.get? key members).merge merge (Members.get? key others) := by
  induction members generalizing others with
  | nil => simp [mergeMembers]
  | cons entry rest ih =>
      obtain ⟨k, child⟩ := entry
      rw [mergeMembers]
      by_cases hk : k = key
      · subst hk
        cases hother : Members.get? k others <;> simp [Members.get?_cons]
      · cases hother : Members.get? k others with
        | none => simp only [Members.get?_cons, if_neg hk, ih]
        | some other => simp only [Members.get?_cons, if_neg hk, ih, Members.get?_erase_of_ne hk]

/-- Where the upper tree reaches a node, the merged tree has that node over what the lower tree
holds there. -/
theorem at?_merge_of_some {lower upper node : Node} {path : List String}
    (h : upper.at? path = some node) :
    (merge lower upper).at? path =
      some ((lower.at? path).elim node fun held => merge held node) := by
  induction path generalizing lower upper with
  | nil =>
      obtain rfl : upper = node := Option.some.inj (by rwa [at?_nil] at h)
      rw [at?_nil, at?_nil, Option.elim_some]
  | cons key rest ih =>
      cases hobj : lower.isObject && upper.isObject with
      | false =>
          have hlower : lower.at? (key :: rest) = none := by
            rcases Bool.and_eq_false_iff.1 hobj with hl | hu
            · exact at?_cons_of_not_object hl key rest
            · rw [at?_cons_of_not_object hu] at h
              cases h
          rw [merge_of_not_object hobj, at?_withMetadata_cons, hlower, h, Option.elim_none]
      | true =>
          obtain ⟨label, members, label', others, rfl, rfl⟩ := exists_objects hobj
          rw [at?_object_cons] at h
          obtain ⟨child, hchild, hnode⟩ := Option.bind_eq_some_iff.1 h
          rw [merge_object, at?_object_cons, at?_object_cons, get?_mergeMembers, hchild]
          cases Members.get? key members with
          | none => exact hnode
          | some held => exact ih hnode

/-- Where the upper tree reaches nothing, it leaves the lower tree as it is or cuts it off. -/
theorem at?_merge_of_none {lower upper : Node} {path : List String} (h : upper.at? path = none) :
    (merge lower upper).at? path =
      if (upper.deepest path).isObject then lower.at? path else none := by
  induction path generalizing lower upper with
  | nil =>
      rw [at?_nil] at h
      cases h
  | cons key rest ih =>
      cases hupper : upper.isObject with
      | false =>
          have hobj : (lower.isObject && upper.isObject) = false := by rw [hupper, Bool.and_false]
          rw [merge_of_not_object hobj, at?_withMetadata_cons, h,
            deepest_cons_of_not_object hupper, hupper, if_neg Bool.false_ne_true]
      | true =>
          cases hlower : lower.isObject with
          | false =>
              have hobj : (lower.isObject && upper.isObject) = false := by
                rw [hlower, Bool.false_and]
              rw [merge_of_not_object hobj, at?_withMetadata_cons, h,
                at?_cons_of_not_object hlower, ite_self]
          | true =>
              obtain ⟨label, members, label', others, rfl, rfl⟩ :=
                exists_objects (a := lower) (b := upper) (by rw [hlower, hupper, Bool.and_self])
              rw [at?_object_cons] at h
              rw [merge_object, at?_object_cons, at?_object_cons, deepest_object_cons,
                get?_mergeMembers]
              cases hchild : Members.get? key others with
              | none =>
                  rw [Option.elim_none, Option.merge_none_right, if_pos hupper]
              | some child =>
                  rw [hchild, Option.bind_some] at h
                  rw [Option.elim_some]
                  cases Members.get? key members with
                  | none =>
                      rw [Option.merge_none_left, Option.bind_some, h, Option.bind_none, ite_self]
                  | some held => exact ih h

/-- What is no object keeps all but its metadata over whatever is below it. -/
theorem elim_merge_of_not_object {node : Node} (h : node.isObject = false) (below : Option Node) :
    (below.elim node fun held => merge held node) =
      node.withMetadata (below.elim node fun held => merge held node).metadata := by
  cases below with
  | none => cases node <;> rfl
  | some held =>
      have hobj : (held.isObject && node.isObject) = false := by rw [h, Bool.and_false]
      rw [Option.elim_some, merge_of_not_object hobj, metadata_withMetadata]

theorem isObject_elim_merge (node : Node) (below : Option Node) :
    (below.elim node fun held => merge held node).isObject = node.isObject := by
  cases below with
  | none => rfl
  | some held => exact isObject_merge held node

/-! ### Folds -/

/-- What a fold holds at a path and is no object comes from the last layer that reaches the path. -/
theorem exists_last_of_at?_mergeAll {layers : List Node} {folded node : Node} {path : List String}
    (hfold : mergeAll layers = some folded) (hnode : folded.at? path = some node)
    (h : node.isObject = false) :
    ∃ below layer above found, layers = below ++ layer :: above ∧ layer.at? path = some found ∧
      (∀ upper ∈ above, upper.at? path = none) ∧ found.isObject = false ∧
        node = found.withMetadata node.metadata := by
  induction layers using List.reverseRecOn generalizing folded with
  | nil => cases hfold
  | append_singleton layers last ih =>
      rw [mergeAll_append_singleton] at hfold
      cases hbase : mergeAll layers with
      | none =>
          rw [hbase] at hfold
          obtain rfl : last = folded := Option.some.inj hfold
          refine ⟨layers, last, [], node, rfl, hnode, nofun, h, ?_⟩
          exact elim_merge_of_not_object h none
      | some base =>
          rw [hbase] at hfold
          obtain rfl : merge base last = folded := Option.some.inj hfold
          cases hlast : last.at? path with
          | some found =>
              -- The last layer reaches the path, and its node is on top.
              rw [at?_merge_of_some hlast] at hnode
              obtain rfl := Option.some.inj hnode
              rw [isObject_elim_merge] at h
              exact ⟨layers, last, [], found, rfl, hlast, nofun, h, elim_merge_of_not_object h _⟩
          | none =>
              rw [at?_merge_of_none hlast] at hnode
              obtain ⟨-, hnode⟩ := Option.ite_none_right_eq_some.1 hnode
              obtain ⟨below, layer, above, found, rfl, hfound, habove, hleaf, heq⟩ :=
                ih hbase hnode
              refine ⟨below, layer, above ++ [last], found, by simp, hfound, ?_, hleaf, heq⟩
              exact List.forall_mem_append.2 ⟨habove, List.forall_mem_singleton.2 hlast⟩

/-- Of the layers of a fold, the last that reaches a path decides what is there. What the fold holds
at a path and is no object has all but its metadata from that layer. Whatever the last layer of all
holds at a path and is no object, the fold holds there, but for its metadata; and where the way of
the last layer ends at an object before the path, the fold holds what the layers before it fold
to. -/
theorem last_layer_decides (layers : List Node) (last : Node) :
    ∃ folded, mergeAll (layers ++ [last]) = some folded ∧ ∀ path : List String,
      (∀ node, folded.at? path = some node → node.isObject = false →
        ∃ below layer above found, layers ++ [last] = below ++ layer :: above ∧
          layer.at? path = some found ∧ (∀ upper ∈ above, upper.at? path = none) ∧
          found.isObject = false ∧ node = found.withMetadata node.metadata) ∧
      (∀ found, last.at? path = some found → found.isObject = false →
        ∃ node, folded.at? path = some node ∧ node = found.withMetadata node.metadata) ∧
      (last.at? path = none → (last.deepest path).isObject = true →
        folded.at? path = (mergeAll layers).bind fun base => base.at? path) := by
  rw [mergeAll_append_singleton]
  cases hbase : mergeAll layers with
  | none =>
      refine ⟨last, rfl, fun path =>
    ⟨fun node hnode h => ?_, fun found hfound h => ?_, fun h _ => h⟩⟩
      · refine exists_last_of_at?_mergeAll ?_ hnode h
        rw [mergeAll_append_singleton, hbase]
      · exact ⟨found, hfound, elim_merge_of_not_object h none⟩
  | some base =>
      refine ⟨merge base last, rfl, fun path => ⟨fun node hnode h => ?_, fun found hfound h => ?_,
        fun hlast hdeepest => ?_⟩⟩
      · refine exists_last_of_at?_mergeAll ?_ hnode h
        rw [mergeAll_append_singleton, hbase]
      · exact ⟨_, at?_merge_of_some hfound, elim_merge_of_not_object h _⟩
      · rw [at?_merge_of_none hlast, if_pos hdeepest]
        rfl

/-- A layer over both that replaces a leaf inside `x` and a leaf beside it. -/
def topLayer : Node :=
  literal (.literal 2 .null) .empty
    (.object [("x", .object [("q", .string "s")]), ("n", .object [])])

theorem last_layer_decides_layers :
    ∃ folded, mergeAll ([lowerLayer, upperLayer] ++ [topLayer]) = some folded ∧
      (∃ below layer above found, [lowerLayer, upperLayer] ++ [topLayer] = below ++ layer :: above ∧
        layer.at? ["x", "r"] = some found ∧ (∀ upper ∈ above, upper.at? ["x", "r"] = none) ∧
        found.isObject = false ∧
        (folded.at? ["x", "r"]).map Node.sources = some found.sources) ∧
      (∃ node, folded.at? ["x", "q"] = some node ∧ node.toJson = .string "s" ∧
        node.sources = [.literal 2 .null]) ∧
      topLayer.at? ["k"] = none ∧ (topLayer.deepest ["k"]).isObject = true ∧
      folded.at? ["k"] = (mergeAll [lowerLayer, upperLayer]).bind fun base => base.at? ["k"] := by
  obtain ⟨folded, hfold, h⟩ := last_layer_decides [lowerLayer, upperLayer] topLayer
  obtain rfl := Option.some.inj hfold
  refine ⟨_, rfl, ?_, ?_, rfl, rfl, (h ["k"]).2.2 rfl rfl⟩
  · obtain ⟨below, layer, above, found, hlayers, hfound, habove, hleaf, heq⟩ :=
      (h ["x", "r"]).1 _ rfl rfl
    refine ⟨below, layer, above, found, hlayers, hfound, habove, hleaf, ?_⟩
    rw [← sources_withMetadata found _, ← heq]
    rfl
  · obtain ⟨node, hnode, heq⟩ := (h ["x", "q"]).2.1 _ rfl rfl
    refine ⟨node, hnode, ?_, ?_⟩
    · rw [heq, toJson_withMetadata]
      rfl
    · rw [heq, sources_withMetadata]
      rfl

end Node

end LayeredConfig
