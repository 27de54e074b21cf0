import LayeredConfig.Proofs.Node.Everywhere

/-!
# Trees seen through their labels

`mapLabels f` keeps the shape, the keys and the values of a tree and sends every label through
`f`. Where `f` forgets part of a label, `x.mapLabels f = y.mapLabels f` says that two trees have
the same nodes in the same places and agree, at every node, in what `f` keeps. A tree in step is
determined by its value but for sources and metadata (`InStep.mapLabels_onlyRaw`).
-/

namespace LayeredConfig

namespace Label

/-- A label with nothing but its sources. -/
def onlySources (label : Label) : Label := ⟨label.sources, .null, .empty⟩

/-- A label with nothing but its raw value. -/
def onlyRaw (label : Label) : Label := ⟨[], label.raw, .empty⟩

end Label

namespace Node

mutual

/-- The tree with every label sent through `f`. -/
def mapLabels (f : Label → Label) : Node → Node
  | .leaf label value => .leaf (f label) value
  | .array label items => .array (f label) (mapLabelsItems f items)
  | .object label members => .object (f label) (mapLabelsMembers f members)

/-- The elements with every label sent through `f`. -/
def mapLabelsItems (f : Label → Label) : List Node → List Node
  | [] => []
  | item :: rest => item.mapLabels f :: mapLabelsItems f rest

/-- The members with every label sent through `f`. -/
def mapLabelsMembers (f : Label → Label) : List (String × Node) → List (String × Node)
  | [] => []
  | (key, child) :: rest => (key, child.mapLabels f) :: mapLabelsMembers f rest

end

theorem mapLabels_leaf (f : Label → Label) (label : Label) (value : Json) :
    (leaf label value).mapLabels f = .leaf (f label) value := by rw [mapLabels]

theorem mapLabels_array (f : Label → Label) (label : Label) (items : List Node) :
    (array label items).mapLabels f = .array (f label) (items.map (mapLabels f)) := by
  have h : mapLabelsItems f items = items.map (mapLabels f) := by
    induction items with
    | nil => simp [mapLabelsItems]
    | cons item rest ih => simp [mapLabelsItems, ih]
  rw [mapLabels, h]

theorem mapLabels_object (f : Label → Label) (label : Label) (members : List (String × Node)) :
    (object label members).mapLabels f =
      .object (f label) (Members.mapValues (mapLabels f) members) := by
  have h : mapLabelsMembers f members = Members.mapValues (mapLabels f) members := by
    induction members with
    | nil => simp [mapLabelsMembers]
    | cons entry rest ih => simp [mapLabelsMembers, ih]
  rw [mapLabels, h]

@[simp] theorem label_mapLabels (f : Label → Label) (n : Node) :
    (n.mapLabels f).label = f n.label := by
  cases n <;> simp [mapLabels_leaf, mapLabels_array, mapLabels_object]

theorem children_mapLabels (f : Label → Label) (n : Node) :
    (n.mapLabels f).children = n.children.map (mapLabels f) := by
  cases n with
  | leaf label value => rw [mapLabels_leaf]; rfl
  | array label items => rw [mapLabels_array]; rfl
  | object label members =>
      rw [mapLabels_object]
      simp [children, Members.mapValues]

theorem toJson_mapLabels (f : Label → Label) (n : Node) : (n.mapLabels f).toJson = n.toJson := by
  induction n using Node.induct with
  | leaf label value => rw [mapLabels_leaf, toJson_leaf, toJson_leaf]
  | array label items ih =>
      rw [mapLabels_array, toJson_array, toJson_array, List.map_map]
      exact congrArg Json.array (List.map_congr_left ih)
  | object label members ih =>
      rw [mapLabels_object, toJson_object, toJson_object, Members.mapValues_mapValues]
      exact congrArg Json.object (Members.mapValues_congr ih)

/-- What forgets metadata does not see that they were exchanged. -/
theorem mapLabels_withMetadata {f : Label → Label}
    (hf : ∀ (label : Label) (metadata : Metadata), f { label with metadata := metadata } = f label)
    (n : Node) (metadata : Metadata) : (n.withMetadata metadata).mapLabels f = n.mapLabels f := by
  cases n <;> simp [withMetadata, withLabel, mapLabels_leaf, mapLabels_array, mapLabels_object, hf]

/-- But for sources and metadata, a tree in step is the literal of its value. -/
theorem InStep.mapLabels_onlyRaw {n : Node} (hn : n.WellFormed) (h : n.InStep) (source : Source)
    (metadata : Metadata) :
    n.mapLabels .onlyRaw = (literal source metadata n.toJson).mapLabels .onlyRaw := by
  induction n using Node.induct with
  | leaf label value =>
      rw [toJson_leaf, literal_of_isPrimitive source metadata (wellFormed_leaf.1 hn),
        mapLabels_leaf, mapLabels_leaf, Label.onlyRaw, inStep_leaf.1 h]
      rfl
  | array label items ih =>
      obtain ⟨hraw, hitems⟩ := inStep_array.1 h
      have hchildren : items.map (mapLabels .onlyRaw) =
          items.map fun item => (literal source metadata item.toJson).mapLabels .onlyRaw := by
        apply List.map_congr_left
        intro item hitem
        exact ih item hitem (wellFormed_array.1 hn item hitem) (hitems item hitem)
      rw [toJson_array, literal_array, mapLabels_array, mapLabels_array, hchildren, Label.onlyRaw,
        hraw, List.map_map, List.map_map]
      rfl
  | object label members ih =>
      obtain ⟨hraw, hmembers⟩ := inStep_object.1 h
      have hchildren : Members.mapValues (mapLabels .onlyRaw) members =
          Members.mapValues (fun child => (literal source metadata child.toJson).mapLabels .onlyRaw)
            members := by
        apply Members.mapValues_congr
        intro entry hentry
        exact ih entry hentry ((wellFormed_object.1 hn).2 entry hentry) (hmembers entry hentry)
      rw [toJson_object, literal_object, mapLabels_object, mapLabels_object, hchildren,
        Label.onlyRaw, hraw]
      simp [Label.onlyRaw, Members.mapValues, Function.comp_def]

end Node

end LayeredConfig
