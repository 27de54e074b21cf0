import LayeredConfig.Node.Literal
import LayeredConfig.Node.Traversal
import LayeredConfig.Proofs.Json.Everywhere
import LayeredConfig.Proofs.Members.Union

/-!
# What holds at every node

`Everywhere P` says that every node of a tree satisfies `P`. The equations below reduce it to
the root and the children, so that inductions over trees never look at the traversal. Three
instances are used throughout: the keys of every object are distinct, every leaf holds a
primitive, and every raw value is the value of its node (the tree is in step).
-/

namespace LayeredConfig

namespace Node

/-- The nodes right below a node. -/
def children : Node → List Node
  | .leaf .. => []
  | .array _ items => items
  | .object _ members => members.map Prod.snd

/-- Induction over a tree that treats containers alike. -/
theorem induct_children {motive : Node → Prop}
    (step : ∀ n : Node, (∀ child ∈ n.children, motive child) → motive n) (n : Node) : motive n := by
  induction n using Node.induct with
  | leaf label value => exact step _ nofun
  | array label items ih => exact step _ ih
  | object label members ih => exact step _ (List.forall_mem_map.2 ih)

/-- Every node of the tree satisfies `P`. -/
def Everywhere (P : Node → Prop) (n : Node) : Prop := ∀ m ∈ n.nodes, P m

instance (P : Node → Prop) [DecidablePred P] (n : Node) : Decidable (n.Everywhere P) :=
  inferInstanceAs (Decidable (∀ m ∈ n.nodes, P m))

/-! ### The nodes of a tree -/

theorem map_snd_itemEntriesFrom (items : List Node)
    (h : ∀ item ∈ items, ∀ path, (entriesFrom path item).map Prod.snd = item.nodes)
    (path : List Position) (index : Nat) :
    (itemEntriesFrom path index items).map Prod.snd = items.flatMap nodes := by
  induction items generalizing index with
  | nil => simp [itemEntriesFrom]
  | cons item rest ih =>
      obtain ⟨hitem, hrest⟩ := List.forall_mem_cons.1 h
      rw [itemEntriesFrom, List.map_append, hitem, ih hrest, List.flatMap_cons]

theorem map_snd_memberEntriesFrom (members : List (String × Node))
    (h : ∀ entry ∈ members, ∀ path, (entriesFrom path entry.2).map Prod.snd = entry.2.nodes)
    (path : List Position) :
    (memberEntriesFrom path members).map Prod.snd = members.flatMap fun entry => entry.2.nodes := by
  induction members with
  | nil => simp [memberEntriesFrom]
  | cons entry rest ih =>
      obtain ⟨hentry, hrest⟩ := List.forall_mem_cons.1 h
      rw [memberEntriesFrom, List.map_append, hentry, ih hrest, List.flatMap_cons]

/-- Which nodes a tree has does not depend on the path that its root stands at. -/
theorem map_snd_entriesFrom (path : List Position) (n : Node) :
    (entriesFrom path n).map Prod.snd = n.nodes := by
  induction n using Node.induct generalizing path with
  | leaf label value => simp [nodes, entries, entriesFrom]
  | array label items ih =>
      simp [nodes, entries, entriesFrom, map_snd_itemEntriesFrom items ih]
  | object label members ih =>
      simp [nodes, entries, entriesFrom, map_snd_memberEntriesFrom members ih]

@[simp] theorem nodes_leaf (label : Label) (value : Json) :
    (leaf label value).nodes = [leaf label value] := by
  simp [nodes, entries, entriesFrom]

@[simp] theorem nodes_array (label : Label) (items : List Node) :
    (array label items).nodes = array label items :: items.flatMap nodes := by
  have h := map_snd_itemEntriesFrom items (fun item _ path => map_snd_entriesFrom path item)
    [.root] 0
  simp [nodes, entries, entriesFrom, h]

@[simp] theorem nodes_object (label : Label) (members : List (String × Node)) :
    (object label members).nodes =
      object label members :: members.flatMap fun entry => entry.2.nodes := by
  have h := map_snd_memberEntriesFrom members
    (fun entry _ path => map_snd_entriesFrom path entry.2) [.root]
  simp [nodes, entries, entriesFrom, h]

/-! ### Everywhere, from the root down -/

section

variable {P : Node → Prop}

@[simp] theorem everywhere_leaf {label : Label} {value : Json} :
    (leaf label value).Everywhere P ↔ P (leaf label value) := by simp [Everywhere]

@[simp] theorem everywhere_array {label : Label} {items : List Node} :
    (array label items).Everywhere P ↔
      P (array label items) ∧ ∀ item ∈ items, item.Everywhere P := by
  simp only [Everywhere, nodes_array, List.forall_mem_cons, List.mem_flatMap, forall_exists_index,
    and_imp]
  exact and_congr_right fun _ => forall_comm.trans (forall_congr' fun _ => forall_comm)

@[simp] theorem everywhere_object {label : Label} {members : List (String × Node)} :
    (object label members).Everywhere P ↔
      P (object label members) ∧ ∀ entry ∈ members, entry.2.Everywhere P := by
  simp only [Everywhere, nodes_object, List.forall_mem_cons, List.mem_flatMap, forall_exists_index,
    and_imp]
  exact and_congr_right fun _ => forall_comm.trans (forall_congr' fun _ => forall_comm)

/-- A tree satisfies `P` everywhere when its root does and everything below each child. -/
theorem everywhere_iff {n : Node} :
    n.Everywhere P ↔ P n ∧ ∀ child ∈ n.children, child.Everywhere P := by
  cases n with
  | leaf label value => simp [children]
  | array label items => simp [children]
  | object label members => rw [everywhere_object, children, List.forall_mem_map]

theorem Everywhere.root {n : Node} (h : n.Everywhere P) : P n := (everywhere_iff.1 h).1

/-- What holds everywhere below the root holds everywhere below every node. -/
theorem Everywhere.everywhere {n : Node} (h : n.Everywhere P) :
    n.Everywhere fun m => m.Everywhere P := by
  induction n using Node.induct with
  | leaf label value => exact everywhere_leaf.2 h
  | array label items ih =>
      refine everywhere_array.2 ⟨h, fun item hitem => ?_⟩
      exact ih item hitem ((everywhere_array.1 h).2 item hitem)
  | object label members ih =>
      refine everywhere_object.2 ⟨h, fun entry hentry => ?_⟩
      exact ih entry hentry ((everywhere_object.1 h).2 entry hentry)

theorem Everywhere.mono {Q : Node → Prop} {n : Node} (h : n.Everywhere P)
    (hPQ : ∀ m, P m → Q m) : n.Everywhere Q :=
  fun m hm => hPQ m (h m hm)

theorem Everywhere.and {Q : Node → Prop} {n : Node} (hP : n.Everywhere P) (hQ : n.Everywhere Q) :
    n.Everywhere fun m => P m ∧ Q m :=
  fun m hm => ⟨hP m hm, hQ m hm⟩

end

@[simp] theorem children_withMetadata (n : Node) (metadata : Metadata) :
    (n.withMetadata metadata).children = n.children := by
  cases n <;> rfl

/-! ### Values, container by container -/

theorem toJson_leaf (label : Label) (value : Json) : (leaf label value).toJson = value := by
  rw [toJson]

theorem toJson_array (label : Label) (items : List Node) :
    (array label items).toJson = .array (items.map toJson) := by
  rw [toJson, itemsToJson_eq_map]

theorem toJson_object (label : Label) (members : List (String × Node)) :
    (object label members).toJson = .object (Members.mapValues toJson members) := by
  rw [toJson, membersToJson_eq_mapValues]

/-! ### Keys, leaves and raw values -/

/-- No object of the tree holds a key twice. -/
def KeysDistinct (n : Node) : Prop := n.Everywhere fun m => Members.Distinct (m.members?.getD [])

/-- Every leaf of the tree holds a primitive value. -/
def PrimitiveLeaves (n : Node) : Prop :=
  n.Everywhere fun m => (m.value?.all Json.isPrimitive) = true

/-- Every node of the tree has the value it stands for as its raw value. -/
def InStep (n : Node) : Prop := n.Everywhere fun m => m.raw = m.toJson

/-- A tree of maps whose leaves hold primitive values. -/
structure WellFormed (n : Node) : Prop where
  keys : n.KeysDistinct
  leaves : n.PrimitiveLeaves

instance (n : Node) : Decidable n.KeysDistinct :=
  inferInstanceAs (Decidable (n.Everywhere _))

instance (n : Node) : Decidable n.PrimitiveLeaves :=
  inferInstanceAs (Decidable (n.Everywhere _))

instance (n : Node) : Decidable n.InStep :=
  inferInstanceAs (Decidable (n.Everywhere _))

instance (n : Node) : Decidable n.WellFormed :=
  decidable_of_iff (n.KeysDistinct ∧ n.PrimitiveLeaves)
    ⟨fun h => ⟨h.1, h.2⟩, fun h => ⟨h.keys, h.leaves⟩⟩

@[simp] theorem keysDistinct_leaf (label : Label) (value : Json) :
    (leaf label value).KeysDistinct := everywhere_leaf.2 List.nodup_nil

@[simp] theorem keysDistinct_array {label : Label} {items : List Node} :
    (array label items).KeysDistinct ↔ ∀ item ∈ items, item.KeysDistinct :=
  everywhere_array.trans (and_iff_right List.nodup_nil)

@[simp] theorem keysDistinct_object {label : Label} {members : List (String × Node)} :
    (object label members).KeysDistinct ↔
      Members.Distinct members ∧ ∀ entry ∈ members, entry.2.KeysDistinct := everywhere_object

@[simp] theorem wellFormed_leaf {label : Label} {value : Json} :
    (leaf label value).WellFormed ↔ value.isPrimitive = true :=
  ⟨fun h => everywhere_leaf.1 h.leaves, fun h => ⟨keysDistinct_leaf _ _, everywhere_leaf.2 h⟩⟩

@[simp] theorem wellFormed_array {label : Label} {items : List Node} :
    (array label items).WellFormed ↔ ∀ item ∈ items, item.WellFormed := by
  constructor
  · intro h item hitem
    exact ⟨keysDistinct_array.1 h.keys item hitem, (everywhere_array.1 h.leaves).2 item hitem⟩
  · intro h
    refine ⟨keysDistinct_array.2 fun item hitem => (h item hitem).keys, ?_⟩
    exact everywhere_array.2 ⟨rfl, fun item hitem => (h item hitem).leaves⟩

@[simp] theorem wellFormed_object {label : Label} {members : List (String × Node)} :
    (object label members).WellFormed ↔
      Members.Distinct members ∧ ∀ entry ∈ members, entry.2.WellFormed := by
  constructor
  · intro h
    obtain ⟨hkeys, hchildren⟩ := keysDistinct_object.1 h.keys
    refine ⟨hkeys, fun entry hentry => ⟨hchildren entry hentry, ?_⟩⟩
    exact (everywhere_object.1 h.leaves).2 entry hentry
  · rintro ⟨hkeys, h⟩
    refine ⟨keysDistinct_object.2 ⟨hkeys, fun entry hentry => (h entry hentry).keys⟩, ?_⟩
    exact everywhere_object.2 ⟨rfl, fun entry hentry => (h entry hentry).leaves⟩

@[simp] theorem inStep_leaf {label : Label} {value : Json} :
    (leaf label value).InStep ↔ label.raw = value := by
  rw [← toJson_leaf label value]
  exact everywhere_leaf

@[simp] theorem inStep_array {label : Label} {items : List Node} :
    (array label items).InStep ↔
      label.raw = .array (items.map toJson) ∧ ∀ item ∈ items, item.InStep := by
  rw [← toJson_array label items]
  exact everywhere_array

@[simp] theorem inStep_object {label : Label} {members : List (String × Node)} :
    (object label members).InStep ↔
      label.raw = .object (Members.mapValues toJson members) ∧
        ∀ entry ∈ members, entry.2.InStep := by
  rw [← toJson_object label members]
  exact everywhere_object

theorem WellFormed.everywhere {n : Node} (h : n.WellFormed) : n.Everywhere WellFormed :=
  (h.keys.everywhere.and h.leaves.everywhere).mono fun _ hm => ⟨hm.1, hm.2⟩

/-! ### Other metadata -/

@[simp] theorem withMetadata_withMetadata (n : Node) (first second : Metadata) :
    (n.withMetadata first).withMetadata second = n.withMetadata second := by
  cases n <;> rfl

theorem withMetadata_self (n : Node) : n.withMetadata n.metadata = n := by
  cases n <;> rfl

@[simp] theorem members?_withMetadata (n : Node) (metadata : Metadata) :
    (n.withMetadata metadata).members? = n.members? := by
  cases n <;> rfl

@[simp] theorem value?_withMetadata (n : Node) (metadata : Metadata) :
    (n.withMetadata metadata).value? = n.value? := by
  cases n <;> rfl

@[simp] theorem isObject_withMetadata (n : Node) (metadata : Metadata) :
    (n.withMetadata metadata).isObject = n.isObject := by
  cases n <;> rfl

@[simp] theorem wellFormed_withMetadata {n : Node} {metadata : Metadata} :
    (n.withMetadata metadata).WellFormed ↔ n.WellFormed := by
  cases n <;> simp [withMetadata, withLabel]

@[simp] theorem inStep_withMetadata {n : Node} {metadata : Metadata} :
    (n.withMetadata metadata).InStep ↔ n.InStep := by
  cases n <;> simp [withMetadata, withLabel]

/-! ### Values of well-formed trees -/

/-- A well-formed tree that is no object stands for a value that is no object. -/
theorem WellFormed.members?_toJson {n : Node} (h : n.WellFormed) (hn : n.isObject = false) :
    n.toJson.members? = none := by
  cases n with
  | leaf label value =>
      have hvalue := wellFormed_leaf.1 h
      rw [toJson_leaf]
      cases value with
      | object members => simp [Json.isPrimitive] at hvalue
      | _ => rfl
  | array label items => rw [toJson_array]; rfl
  | object label members => simp [isObject] at hn

theorem WellFormed.distinct_toJson {n : Node} (h : n.WellFormed) : n.toJson.Distinct := by
  induction n using Node.induct with
  | leaf label value =>
      have hv := wellFormed_leaf.1 h
      rw [toJson_leaf]
      cases value with
      | null => exact .null
      | bool b => exact .bool b
      | number x => exact .number x
      | string s => exact .string s
      | array items => simp [Json.isPrimitive] at hv
      | object members => simp [Json.isPrimitive] at hv
  | array label items ih =>
      rw [toJson_array]
      refine .array fun v hv => ?_
      obtain ⟨item, hitem, rfl⟩ := List.mem_map.1 hv
      exact ih item hitem (wellFormed_array.1 h item hitem)
  | object label members ih =>
      obtain ⟨hkeys, hchildren⟩ := wellFormed_object.1 h
      rw [toJson_object]
      refine .object ((Members.distinct_mapValues toJson).2 hkeys) fun key v hv => ?_
      obtain ⟨entry, hentry, heq⟩ := List.mem_map.1 hv
      obtain ⟨rfl, rfl⟩ := Prod.mk.inj heq
      exact ih entry hentry (hchildren entry hentry)

/-- The value of a well-formed tree, as a document. -/
def WellFormed.document {n : Node} (h : n.WellFormed) : Json.Document :=
  ⟨n.toJson, h.distinct_toJson⟩

/-! ### Literal trees -/

theorem literal_array (source : Source) (metadata : Metadata) (items : List Json) :
    literal source metadata (.array items) =
      .array ⟨[source], .array items, metadata⟩ (items.map (literal source metadata)) := by
  rw [literal, literalItems_eq_map]

theorem literal_object (source : Source) (metadata : Metadata) (members : List (String × Json)) :
    literal source metadata (.object members) =
      .object ⟨[source], .object members, metadata⟩
        (Members.mapValues (literal source metadata) members) := by
  rw [literal, literalMembers_eq_mapValues]

theorem literal_of_isPrimitive (source : Source) (metadata : Metadata) {v : Json}
    (h : v.isPrimitive = true) : literal source metadata v = .leaf ⟨[source], v, metadata⟩ v := by
  cases v with
  | array items => simp [Json.isPrimitive] at h
  | object members => simp [Json.isPrimitive] at h
  | _ => rw [literal] <;> simp

theorem toJson_literal (source : Source) (metadata : Metadata) (v : Json) :
    (literal source metadata v).toJson = v := by
  induction v using Json.induct with
  | array items ih =>
      rw [literal_array, toJson_array, List.map_map]
      exact congrArg Json.array ((List.map_congr_left ih).trans (List.map_id items))
  | object members ih =>
      rw [literal_object, toJson_object, Members.mapValues, Members.mapValues, List.map_map]
      refine congrArg Json.object (Eq.trans ?_ (List.map_id members))
      apply List.map_congr_left
      intro entry hentry
      exact congrArg (Prod.mk entry.1) (ih entry hentry)
  | _ => rw [literal_of_isPrimitive _ _ rfl, toJson_leaf]

/-- Wrapping a value as it stands gives a tree in step. -/
theorem inStep_literal (source : Source) (metadata : Metadata) (v : Json) :
    (literal source metadata v).InStep := by
  induction v using Json.induct with
  | array items ih =>
      refine everywhere_iff.2 ⟨by rw [raw_literal, toJson_literal], ?_⟩
      rw [literal_array, children, List.forall_mem_map]
      exact ih
  | object members ih =>
      refine everywhere_iff.2 ⟨by rw [raw_literal, toJson_literal], ?_⟩
      rw [literal_object, children, Members.mapValues, List.map_map, List.forall_mem_map]
      exact ih
  | _ =>
      rw [literal_of_isPrimitive _ _ rfl]
      exact inStep_leaf.2 rfl

theorem wellFormed_literal (source : Source) (metadata : Metadata) {v : Json} (hv : v.Distinct) :
    (literal source metadata v).WellFormed := by
  induction v using Json.induct with
  | array items ih =>
      cases hv with
      | array hitems =>
          rw [literal_array, wellFormed_array, List.forall_mem_map]
          exact fun item hitem => ih item hitem (hitems item hitem)
  | object members ih =>
      cases hv with
      | object hkeys hvalues =>
          rw [literal_object, wellFormed_object, Members.distinct_mapValues, Members.mapValues,
            List.forall_mem_map]
          exact ⟨hkeys, fun entry hentry => ih entry hentry (hvalues entry.1 entry.2 hentry)⟩
  | _ => rw [literal_of_isPrimitive _ _ rfl, wellFormed_leaf]; rfl

/-- Every node of a literal tree carries the source and the metadata that the value was wrapped
with. -/
theorem everywhere_literal (source : Source) (metadata : Metadata) (v : Json) :
    (literal source metadata v).Everywhere fun n =>
      n.sources = [source] ∧ n.metadata = metadata := by
  induction v using Json.induct with
  | array items ih =>
      rw [literal_array, everywhere_array, List.forall_mem_map]
      exact ⟨⟨rfl, rfl⟩, ih⟩
  | object members ih =>
      rw [literal_object, everywhere_object, Members.mapValues, List.forall_mem_map]
      exact ⟨⟨rfl, rfl⟩, ih⟩
  | _ => rw [literal_of_isPrimitive _ _ rfl, everywhere_leaf]; exact ⟨rfl, rfl⟩

theorem everywhere_metadata_literal (source : Source) (metadata : Metadata) (v : Json) :
    (literal source metadata v).Everywhere fun n => n.metadata = metadata :=
  (everywhere_literal source metadata v).mono fun _ h => h.2

theorem everywhere_sources_literal (source : Source) (metadata : Metadata) (v : Json) :
    (literal source metadata v).Everywhere fun n => n.sources = [source] :=
  (everywhere_literal source metadata v).mono fun _ h => h.1

theorem withMetadata_literal_self (source : Source) (metadata : Metadata) (v : Json) :
    (literal source metadata v).withMetadata metadata = literal source metadata v := by
  cases v with
  | array items => rw [literal_array]; rfl
  | object members => rw [literal_object]; rfl
  | _ => rw [literal_of_isPrimitive _ _ rfl]; rfl

end Node

end LayeredConfig
