import LayeredConfig.Metadata
import LayeredConfig.Source.Basic

/-!
# Evaluated trees

A node pairs what evaluation made of a value with where it came from. Its label holds the
sources that produced it, the raw value found at its place and its metadata; below the label it is
a leaf, an array of nodes or an object of nodes. Leaves hold primitive values when they come from
evaluation; a caller who builds nodes may put any value into one.
-/

namespace LayeredConfig

/-- What every node carries beside its value. -/
structure Label where
  sources : List Source
  raw : Json
  metadata : Metadata
  deriving Inhabited

/-- A label of one source, without metadata. -/
def Label.of (source : Source) (raw : Json) : Label := ⟨[source], raw, .empty⟩

/-- An evaluated tree. -/
inductive Node where
  | leaf (label : Label) (value : Json)
  | array (label : Label) (items : List Node)
  | object (label : Label) (members : List (String × Node))
  deriving Inhabited

namespace Node

/-- Induction over a tree: a container may use the statement for all its children. -/
@[elab_as_elim]
theorem induct {motive : Node → Prop} (leaf : ∀ label value, motive (leaf label value))
    (array : ∀ label items, (∀ item ∈ items, motive item) → motive (array label items))
    (object : ∀ label members, (∀ entry ∈ members, motive entry.2) →
      motive (object label members))
    (n : Node) : motive n :=
  Node.rec (motive_1 := motive) (motive_2 := fun items => ∀ item ∈ items, motive item)
    (motive_3 := fun members => ∀ entry ∈ members, motive entry.2)
    (motive_4 := fun entry => motive entry.2)
    leaf array object
    (fun _ h => nomatch h)
    (fun _ _ head tail => List.forall_mem_cons.2 ⟨head, tail⟩)
    (fun _ h => nomatch h)
    (fun _ _ head tail => List.forall_mem_cons.2 ⟨head, tail⟩)
    (fun _ _ h => h) n

/-- The label of a node. -/
def label : Node → Label
  | .leaf label _ | .array label _ | .object label _ => label

/-- The same node under another label. -/
def withLabel (n : Node) (label : Label) : Node :=
  match n with
  | .leaf _ value => .leaf label value
  | .array _ items => .array label items
  | .object _ members => .object label members

/-- The sources that produced a node. -/
def sources (n : Node) : List Source := n.label.sources

/-- The raw value found at the place of a node. -/
def raw (n : Node) : Json := n.label.raw

/-- The metadata of a node. -/
def metadata (n : Node) : Metadata := n.label.metadata

/-- The same node with other metadata. -/
def withMetadata (n : Node) (metadata : Metadata) : Node :=
  n.withLabel { n.label with metadata := metadata }

/-- The members of an object node. -/
def members? : Node → Option (Members Node)
  | .object _ members => some members
  | _ => none

/-- The elements of an array node. -/
def items? : Node → Option (List Node)
  | .array _ items => some items
  | _ => none

/-- The value of a leaf. -/
def value? : Node → Option Json
  | .leaf _ value => some value
  | _ => none

/-- Whether a node is an object. -/
def isObject : Node → Bool
  | .object .. => true
  | _ => false

/-- The shapes of nodes. -/
inductive Shape where
  | leaf
  | array
  | object
  deriving DecidableEq, Repr

/-- The shape of a node. -/
def shape : Node → Shape
  | .leaf .. => .leaf
  | .array .. => .array
  | .object .. => .object

/-- A node with metadata laid over its own. -/
def addMetadata (n : Node) (upper : Metadata) : Node :=
  n.withMetadata (n.metadata.extended upper)

/-- A node without one entry of its metadata. -/
def dropMetadata (n : Node) (key : String) : Node := n.withMetadata (n.metadata.erase key)

/-- A node whose metadata gives no instructions. -/
def withoutInstructions (n : Node) : Node := n.withMetadata n.metadata.withoutInstructions

/-- An object node of one source from a list of members; a repeated key keeps its first place
and takes its last node. -/
def ofMembers (source : Source) (raw : Json) (entries : List (String × Node)) : Node :=
  .object (.of source raw) (Members.ofList entries)

mutual

/-- The value that a tree stands for. -/
def toJson : Node → Json
  | .leaf _ value => value
  | .array _ items => .array (itemsToJson items)
  | .object _ members => .object (membersToJson members)

/-- The values of elements. -/
def itemsToJson : List Node → List Json
  | [] => []
  | item :: rest => item.toJson :: itemsToJson rest

/-- The values of members. -/
def membersToJson : List (String × Node) → List (String × Json)
  | [] => []
  | (key, child) :: rest => (key, child.toJson) :: membersToJson rest

end

/-! ### Labels -/

@[simp] theorem label_leaf (label : Label) (value : Json) : (leaf label value).label = label := rfl

@[simp] theorem label_array (label : Label) (items : List Node) :
    (array label items).label = label := rfl

@[simp] theorem label_object (label : Label) (members : List (String × Node)) :
    (object label members).label = label := rfl

@[simp] theorem label_withLabel (n : Node) (label : Label) : (n.withLabel label).label = label := by
  cases n <;> rfl

@[simp] theorem metadata_withMetadata (n : Node) (metadata : Metadata) :
    (n.withMetadata metadata).metadata = metadata := by simp [Node.metadata, withMetadata]

@[simp] theorem metadata_addMetadata (n : Node) (upper : Metadata) :
    (n.addMetadata upper).metadata = n.metadata.extended upper := metadata_withMetadata ..

@[simp] theorem metadata_dropMetadata (n : Node) (key : String) :
    (n.dropMetadata key).metadata = n.metadata.erase key := metadata_withMetadata ..

@[simp] theorem metadata_withoutInstructions (n : Node) :
    n.withoutInstructions.metadata = n.metadata.withoutInstructions := metadata_withMetadata ..

@[simp] theorem sources_withMetadata (n : Node) (metadata : Metadata) :
    (n.withMetadata metadata).sources = n.sources := by simp [sources, withMetadata]

@[simp] theorem raw_withMetadata (n : Node) (metadata : Metadata) :
    (n.withMetadata metadata).raw = n.raw := by simp [raw, withMetadata]

/-! ### Values of trees -/

@[simp] theorem toJson_withLabel (n : Node) (label : Label) :
    (n.withLabel label).toJson = n.toJson := by
  cases n <;> simp [withLabel, toJson]

@[simp] theorem toJson_withMetadata (n : Node) (metadata : Metadata) :
    (n.withMetadata metadata).toJson = n.toJson := toJson_withLabel ..

theorem itemsToJson_eq_map (items : List Node) : itemsToJson items = items.map toJson := by
  induction items with
  | nil => simp [itemsToJson]
  | cons item rest ih => simp [itemsToJson, ih]

theorem membersToJson_eq_mapValues (members : List (String × Node)) :
    membersToJson members = Members.mapValues toJson members := by
  induction members with
  | nil => simp [membersToJson, Members.mapValues]
  | cons entry rest ih =>
      rw [membersToJson, ih]
      rfl

end Node

end LayeredConfig
