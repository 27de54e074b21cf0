import LayeredConfig.Node.Navigation
import LayeredConfig.Proofs.Escaping.StrayKeys
import LayeredConfig.Proofs.Merge.Values
import LayeredConfig.Proofs.Metadata.Combining
import LayeredConfig.Proofs.Node.Paths

/-!
# Violations in merged trees

Validation comes after the layers are folded, and metadata combines in every fold: a mark of the
lower layer stays on a node that the upper layer replaces, unless the upper layer has an entry of
its own under the same name. The main statement, `mem_violations_merge_iff`, says what this does to
the violations of the upper layer: each of them is found in the merged tree, under the same path
and key, except where the lower layer holds an unescaped member in the same place and the upper
member has no entry for that mark.
-/

namespace LayeredConfig

namespace Node

/-- The metadata of every node of the tree is a map. -/
def MetadataDistinct (n : Node) : Prop := n.Everywhere fun m => m.metadata.entries.Distinct

instance (n : Node) : Decidable n.MetadataDistinct :=
  inferInstanceAs (Decidable (n.Everywhere _))

end Node

namespace ReservedKeys

variable {marker : String}

/-- The object that the path leads to holds a member under the key that violates the
reservation. -/
def ViolatesAt (marker : String) (n : Node) (path : List Position) (key : String) : Prop :=
  ∃ holder child, n.Leads path holder ∧ (key, child) ∈ holder.members?.getD [] ∧
    violates marker (key, child) = true

/-- What validation gathers, one by one: the keys of violating members with the paths of their
objects. -/
theorem mem_violations_iff {n : Node} {key : String} {path : List Position} :
    (key, path) ∈ violations marker n ↔
      ∃ below, path = .root :: below ∧ ViolatesAt marker n below key := by
  rw [violations, List.mem_flatMap]
  constructor
  · rintro ⟨⟨p, holder⟩, hholder, hkey⟩
    obtain ⟨below, rfl, hlead⟩ := Node.mem_entries_iff.1 hholder
    obtain ⟨⟨k, child⟩, hmem, heq⟩ := List.mem_map.1 hkey
    obtain ⟨rfl, rfl⟩ := Prod.mk.inj heq
    obtain ⟨hchild, hviolates⟩ := List.mem_filter.1 hmem
    exact ⟨below, rfl, holder, child, hlead, hchild, hviolates⟩
  · rintro ⟨below, rfl, holder, child, hlead, hchild, hviolates⟩
    refine ⟨(.root :: below, holder), Node.mem_entries_iff.2 ⟨below, rfl, hlead⟩, ?_⟩
    exact List.mem_map.2 ⟨(key, child), List.mem_filter.2 ⟨hchild, hviolates⟩, rfl⟩

/-! ### Violations, step by step -/

theorem violatesAt_nil {n : Node} {key : String} :
    ViolatesAt marker n [] key ↔
      ∃ child, (key, child) ∈ n.members?.getD [] ∧ violates marker (key, child) = true := by
  constructor
  · rintro ⟨holder, child, hlead, h⟩
    obtain rfl := Node.leads_nil.1 hlead
    exact ⟨child, h⟩
  · rintro ⟨child, h⟩
    exact ⟨n, child, .here n, h⟩

theorem violatesAt_withMetadata {n : Node} {metadata : Metadata} {path : List Position}
    {key : String} :
    ViolatesAt marker (n.withMetadata metadata) path key ↔ ViolatesAt marker n path key := by
  cases path with
  | nil => rw [violatesAt_nil, violatesAt_nil, Node.members?_withMetadata]
  | cons position rest => simp only [ViolatesAt, Node.leads_withMetadata_cons]

theorem violatesAt_object_nil {label : Label} {members : List (String × Node)}
    (hd : Members.Distinct members) {key : String} :
    ViolatesAt marker (.object label members) [] key ↔
      ∃ child, Members.get? key members = some child ∧ violates marker (key, child) = true := by
  rw [violatesAt_nil]
  exact exists_congr fun child =>
    and_congr_left fun _ => ⟨Members.get?_of_mem hd, Members.mem_of_get?_eq_some⟩

theorem violatesAt_cons {label : Label} {members : List (String × Node)} {position : Position}
    {path : List Position} {key : String} :
    ViolatesAt marker (.object label members) (position :: path) key ↔
      ∃ k child, position = .key k ∧ (k, child) ∈ members ∧ ViolatesAt marker child path key := by
  constructor
  · rintro ⟨holder, inner, hlead, h⟩
    rcases Node.leads_object.1 hlead with ⟨hnil, -⟩ | ⟨k, child, below, hchild, heq, hlead⟩
    · cases hnil
    · cases heq
      exact ⟨k, child, rfl, hchild, holder, inner, hlead, h⟩
  · rintro ⟨k, child, rfl, hchild, holder, inner, hlead, h⟩
    exact ⟨holder, inner, .member hchild hlead, h⟩

theorem violatesAt_object_cons {label : Label} {members : List (String × Node)}
    (hd : Members.Distinct members) {position : Position} {path : List Position} {key : String} :
    ViolatesAt marker (.object label members) (position :: path) key ↔
      ∃ k child, position = .key k ∧ Members.get? k members = some child ∧
        ViolatesAt marker child path key := by
  rw [violatesAt_cons]
  refine exists₂_congr fun k child => and_congr_right fun _ => and_congr_left fun _ => ?_
  exact ⟨Members.get?_of_mem hd, Members.mem_of_get?_eq_some⟩

/-! ### Members that the lower layer excuses -/

/-- Below objects alone, both trees hold a member under the path and the key: the lower tree one
that is marked as unescaped, the upper tree one without an entry for that mark. -/
def Excused (lower upper : Node) (path : List Position) (key : String) : Prop :=
  ∃ keys held child, path = keys.map Position.key ∧
    lower.at? (keys ++ [key]) = some held ∧ upper.at? (keys ++ [key]) = some child ∧
    held.metadata.flag Metadata.fromEscapedDirective = true ∧
    child.metadata.get? Metadata.fromEscapedDirective = none

theorem at?_append_singleton_of_not_object {n : Node} (h : n.isObject = false)
    (keys : List String) (key : String) : n.at? (keys ++ [key]) = none := by
  cases n with
  | object label members => simp [Node.isObject] at h
  | _ => cases keys <;> simp [Node.at?]

theorem not_excused_of_not_object {lower upper : Node}
    (h : (lower.isObject && upper.isObject) = false) (path : List Position) (key : String) :
    ¬ Excused lower upper path key := by
  rintro ⟨keys, held, child, -, hheld, hchild, -⟩
  rcases Bool.and_eq_false_iff.1 h with h | h
  · simp [at?_append_singleton_of_not_object h] at hheld
  · simp [at?_append_singleton_of_not_object h] at hchild

theorem excused_object_nil {a b : Label} {members others : List (String × Node)} {key : String} :
    Excused (.object a members) (.object b others) [] key ↔
      ∃ held child, Members.get? key members = some held ∧ Members.get? key others = some child ∧
        held.metadata.flag Metadata.fromEscapedDirective = true ∧
        child.metadata.get? Metadata.fromEscapedDirective = none := by
  constructor
  · rintro ⟨keys, held, child, hpath, hheld, hchild, h⟩
    obtain rfl : keys = [] := by simpa using hpath.symm
    refine ⟨held, child, ?_, ?_, h⟩
    · cases hget : Members.get? key members <;> simp_all [Node.at?]
    · cases hget : Members.get? key others <;> simp_all [Node.at?]
  · rintro ⟨held, child, hheld, hchild, h⟩
    exact ⟨[], held, child, rfl, by simp [Node.at?, hheld], by simp [Node.at?, hchild], h⟩

theorem excused_object_cons {a b : Label} {members others : List (String × Node)} {k : String}
    {path : List Position} {key : String} :
    Excused (.object a members) (.object b others) (.key k :: path) key ↔
      ∃ lower upper, Members.get? k members = some lower ∧ Members.get? k others = some upper ∧
        Excused lower upper path key := by
  constructor
  · rintro ⟨keys, held, child, hpath, hheld, hchild, h⟩
    cases keys with
    | nil => simp at hpath
    | cons first keys =>
        obtain ⟨hk, hrest⟩ := List.cons.inj hpath
        cases hk
        rw [List.cons_append, Node.at?] at hheld hchild
        cases hlower : Members.get? k members with
        | none => simp [hlower] at hheld
        | some lower =>
            cases hupper : Members.get? k others with
            | none => simp [hupper] at hchild
            | some upper =>
                simp only [hlower] at hheld
                simp only [hupper] at hchild
                exact ⟨lower, upper, rfl, rfl, keys, held, child, hrest, hheld, hchild, h⟩
  · rintro ⟨lower, upper, hlower, hupper, keys, held, child, rfl, hheld, hchild, h⟩
    refine ⟨k :: keys, held, child, rfl, ?_, ?_, h⟩
    · simpa [Node.at?, hlower] using hheld
    · simpa [Node.at?, hupper] using hchild

/-! ### Merging -/

/-- A member that violates the reservation does so over a lower one, unless it is excused. -/
theorem violates_merge_iff {key : String} {held child : Node}
    (hmetadata : child.metadata.entries.Distinct) (h : violates marker (key, child) = true) :
    violates marker (key, held.merge child) = true ↔
      ¬ (held.metadata.flag Metadata.fromEscapedDirective = true ∧
        child.metadata.get? Metadata.fromEscapedDirective = none) := by
  simp only [violates, Bool.and_eq_true, Bool.not_eq_true', ← Bool.not_eq_true] at h ⊢
  rw [Node.metadata_merge, Metadata.flag_merged hmetadata]
  simp [h, and_comm]

theorem violatesAt_merge_iff {lower upper : Node} (hl : lower.KeysDistinct)
    (hu : upper.KeysDistinct) (hmetadata : upper.MetadataDistinct) {path : List Position}
    {key : String} (h : ViolatesAt marker upper path key) :
    ViolatesAt marker (lower.merge upper) path key ↔ ¬ Excused lower upper path key := by
  induction lower using Node.induct generalizing upper path with
  | leaf label value =>
      rw [Node.merge_of_not_object rfl, violatesAt_withMetadata]
      exact iff_of_true h (not_excused_of_not_object rfl path key)
  | array label items ih =>
      rw [Node.merge_of_not_object rfl, violatesAt_withMetadata]
      exact iff_of_true h (not_excused_of_not_object rfl path key)
  | object label members ih =>
      cases hobj : (Node.object label members).isObject && upper.isObject with
      | false =>
          rw [Node.merge_of_not_object hobj, violatesAt_withMetadata]
          exact iff_of_true h (not_excused_of_not_object hobj path key)
      | true =>
          obtain ⟨_, _, label', others, heq, rfl⟩ := Node.exists_objects hobj
          cases heq
          obtain ⟨hm, hmembers⟩ := Node.keysDistinct_object.1 hl
          obtain ⟨ho, hothers⟩ := Node.keysDistinct_object.1 hu
          have hbelow := (Node.everywhere_object.1 hmetadata).2
          rw [Node.merge_object, Node.mergeMembers_eq_unionWith hm ho]
          have hunion := hm.unionWith (f := Node.merge) ho
          cases path with
          | nil =>
              -- The violation is a member of this very object.
              obtain ⟨child, hchild, hviolates⟩ := (violatesAt_object_nil ho).1 h
              have hmem := Members.mem_of_get?_eq_some hchild
              rw [violatesAt_object_nil hunion, Members.get?_unionWith, hchild,
                excused_object_nil, hchild]
              cases hheld : Members.get? key members with
              | none => simp [hviolates]
              | some held => simp [violates_merge_iff (hbelow _ hmem).root hviolates]
          | cons position path =>
              obtain ⟨k, child, rfl, hchild, hviolates⟩ := (violatesAt_object_cons ho).1 h
              have hmem := Members.mem_of_get?_eq_some hchild
              rw [violatesAt_object_cons hunion, excused_object_cons]
              simp only [Position.key.injEq, exists_and_left, exists_eq_left',
                Members.get?_unionWith, hchild]
              cases hheld : Members.get? k members with
              | none => simp [hviolates]
              | some held =>
                  have hheld' := Members.mem_of_get?_eq_some hheld
                  have hstep := ih (k, held) hheld' (hmembers _ hheld') (hothers _ hmem)
                    (hbelow _ hmem) hviolates
                  simpa using hstep

/-- What becomes of the violations of the upper layer: a violation stays where it is in the merged
tree exactly when the lower layer does not excuse it. Below an array nothing is excused, nor where
the lower layer holds no member under the same path and key. -/
theorem mem_violations_merge_iff {lower upper : Node} (hl : lower.KeysDistinct)
    (hu : upper.KeysDistinct) (hmetadata : upper.MetadataDistinct) {key : String}
    {path : List Position} (h : (key, path) ∈ violations marker upper) :
    (key, path) ∈ violations marker (lower.merge upper) ↔
      ¬ ∃ below, path = .root :: below ∧ Excused lower upper below key := by
  obtain ⟨below, rfl, hviolates⟩ := mem_violations_iff.1 h
  have hmerge := violatesAt_merge_iff hl hu hmetadata hviolates
  rw [mem_violations_iff]
  simp only [List.cons.injEq, true_and, exists_eq_left', hmerge]

/-- A layer whose `db` has an unescaped member. -/
def unescapedLayer : Node :=
  .ofMembers (.literal 0 .null) .null
    [("db", .ofMembers (.literal 0 .null) .null
      [("$host", .leaf ⟨[.literal 0 .null], .null,
        ⟨[(Metadata.fromEscapedDirective, .bool true)]⟩⟩ .null)])]

/-- A layer whose `db` has two stray members. -/
def straysLayer : Node :=
  .literal (.literal 1 .null) .empty
    (.object [("db", .object [("$host", .ofInt 1), ("$port", .ofInt 2)])])

theorem mem_violations_merge_layers :
    unescapedLayer.KeysDistinct ∧ straysLayer.KeysDistinct ∧ straysLayer.MetadataDistinct ∧
    (("$port", [.root, .key "db"]) ∈ violations "$" straysLayer ∧
      ("$port", [.root, .key "db"]) ∈ violations "$" (unescapedLayer.merge straysLayer)) ∧
    (("$host", [.root, .key "db"]) ∈ violations "$" straysLayer ∧
      ("$host", [.root, .key "db"]) ∉ violations "$" (unescapedLayer.merge straysLayer)) := by
  have hl : unescapedLayer.KeysDistinct := by decide
  have hu : straysLayer.KeysDistinct := by decide
  have hmetadata : straysLayer.MetadataDistinct := by decide
  have hport : ("$port", [.root, .key "db"]) ∈ violations "$" straysLayer := by decide
  have hhost : ("$host", [.root, .key "db"]) ∈ violations "$" straysLayer := by decide
  refine ⟨hl, hu, hmetadata, ⟨hport, ?_⟩, hhost, ?_⟩
  · refine (mem_violations_merge_iff hl hu hmetadata hport).2 ?_
    rintro ⟨_, hpath, keys, held, child, rfl, hheld, -⟩
    rcases keys with _ | ⟨k, _ | ⟨_, _⟩⟩
    · simp at hpath
    · obtain rfl : "db" = k := by simpa using hpath
      cases hheld
    · simp at hpath
  · intro hmerged
    refine (mem_violations_merge_iff hl hu hmetadata hhost).1 hmerged ?_
    exact ⟨[.key "db"], rfl, ["db"], _, _, rfl, rfl, rfl, by decide, by decide⟩

/-- A stray key of the upper layer goes unreported: the lower layer writes the same key doubled,
and its mark covers the member that replaces its own. -/
theorem merge_launders_stray :
    ∃ lower upper,
      ((Evaluator.mk [()] .empty .empty).evaluate dollarSetting (.object [("$$a", .ofInt 1)])
        (.literal 0 .null)).result = .ok lower ∧
      ((Evaluator.mk [()] .empty .empty).evaluate dollarSetting (.object [("$a", .ofInt 2)])
        (.literal 1 .null)).result = .ok upper ∧
      ("$a", [.root]) ∈ violations "$" upper ∧
      ("$a", [.root]) ∉ violations "$" (lower.merge upper) ∧
      validate "$" (lower.merge upper) = .ok () ∧
      (lower.merge upper).toJson = .object [("$a", .ofInt 2)] :=
  ⟨_, _, rfl, rfl, by decide, by decide, rfl, by decide⟩

end ReservedKeys

end LayeredConfig
