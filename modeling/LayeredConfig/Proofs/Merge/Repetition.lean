import LayeredConfig.Proofs.Merge.Covering
import LayeredConfig.Proofs.Merge.Precedence
import LayeredConfig.Proofs.Node.SourceReport

/-!
# Layers laid on again

Laying a layer on once more changes nothing, for values and for trees
(`repeated_layer_adds_nothing`). What a tree says at a node is in its label, and labels combine as
values do, but for their sources, which are appended: a node of a repeated layer names the sources
of the layer as often as the layer is laid on. Trees are therefore compared through `Label.once`.
-/

namespace LayeredConfig

/-! ### Labels -/

namespace Metadata

variable {m upper : Metadata}

theorem object_merged (m upper : Metadata) :
    Json.object (m.merged upper).entries =
      (Json.object m.entries).overlay (.object upper.entries) :=
  (Json.overlay_object _ _).symm

theorem merged_eq_self (hm : (Json.object m.entries).Distinct)
    (hu : (Json.object upper.entries).Distinct)
    (h : (Json.object m.entries).Covers (.object upper.entries)) : m.merged upper = m := by
  have hentries := (Json.overlay_eq_self_iff ⟨_, hm⟩ ⟨_, hu⟩).2 h
  rw [← object_merged, Json.object.injEq] at hentries
  exact congrArg Metadata.mk hentries

end Metadata

namespace Label

variable {label upper : Label}

/-- Neither the raw value nor the metadata repeats a key. -/
structure Distinct (label : Label) : Prop where
  raw : label.raw.Distinct
  metadata : (Json.object label.metadata.entries).Distinct

/-- Whatever the upper label says, the label says already. -/
structure Covers (label upper : Label) : Prop where
  sources : ∀ s ∈ upper.sources, s ∈ label.sources
  raw : label.raw.Covers upper.raw
  metadata : (Json.object label.metadata.entries).Covers (.object upper.metadata.entries)

/-- The label of two merged objects. -/
def combined (label upper : Label) : Label :=
  ⟨label.sources ++ upper.sources, label.raw.overlay upper.raw,
    label.metadata.merged upper.metadata⟩

/-- A label that names no source twice. -/
def once (label : Label) : Label := { label with sources := label.sources.foldl Node.addSource [] }

theorem Distinct.combined (hl : label.Distinct) (hu : upper.Distinct) :
    (label.combined upper).Distinct where
  raw := hl.raw.overlay hu.raw
  metadata := by
    rw [Label.combined, Metadata.object_merged]
    exact hl.metadata.overlay hu.metadata

theorem covers_combined (label : Label) (hu : upper.Distinct) :
    (label.combined upper).Covers upper where
  sources := fun _ hs => List.mem_append_right _ hs
  raw := Json.covers_overlay _ ⟨_, hu.raw⟩
  metadata := by
    rw [combined, Metadata.object_merged]
    exact Json.covers_overlay _ ⟨_, hu.metadata⟩

theorem Covers.once_combined (h : label.Covers upper) (hl : label.Distinct) (hu : upper.Distinct) :
    (label.combined upper).once = label.once := by
  rw [combined, once, once, Node.foldl_addSource_append_of_subset h.sources,
    (Json.overlay_eq_self_iff ⟨_, hl.raw⟩ ⟨_, hu.raw⟩).2 h.raw,
    Metadata.merged_eq_self hl.metadata hu.metadata h.metadata]

end Label

namespace Node

variable {a b : Node}

theorem merge_object_combined (label label' : Label) (members others : List (String × Node)) :
    merge (object label members) (object label' others) =
      object (label.combined label') (mergeMembers members others) :=
  merge_object label label' members others

/-! ### Maps in trees -/

/-- No map in the tree repeats a key: neither an object nor the raw value or the metadata of a
node. -/
def MapsDistinct (n : Node) : Prop :=
  n.Everywhere fun m => Members.Distinct (m.members?.getD []) ∧ m.label.Distinct

theorem mapsDistinct_object {label : Label} {members : List (String × Node)} :
    (object label members).MapsDistinct ↔
      (Members.Distinct members ∧ label.Distinct) ∧ ∀ entry ∈ members, entry.2.MapsDistinct :=
  everywhere_object

theorem MapsDistinct.distinct_metadata (h : b.MapsDistinct) :
    (Json.object b.metadata.entries).Distinct := h.root.2.metadata

theorem MapsDistinct.withMetadata {metadata : Metadata} (h : b.MapsDistinct)
    (hd : (Json.object metadata.entries).Distinct) : (b.withMetadata metadata).MapsDistinct := by
  obtain ⟨⟨hkeys, hlabel⟩, hchildren⟩ := everywhere_iff.1 h
  refine everywhere_iff.2 ⟨⟨?_, ?_⟩, ?_⟩
  · rwa [members?_withMetadata]
  · rw [Node.withMetadata, label_withLabel]
    exact ⟨hlabel.raw, hd⟩
  · rwa [children_withMetadata]

theorem MapsDistinct.merge (ha : a.MapsDistinct) (hb : b.MapsDistinct) :
    (Node.merge a b).MapsDistinct := by
  have hkeys : (Node.merge a b).KeysDistinct :=
    KeysDistinct.merge (ha.mono fun _ h => h.1) (hb.mono fun _ h => h.1)
  refine hkeys.and (Everywhere.merge (fun a b ha hb => ?_) (ha.mono fun _ h => h.2)
    (hb.mono fun _ h => h.2))
  cases hobj : a.isObject && b.isObject with
  | false =>
      rw [merge_of_not_object hobj, Node.withMetadata, label_withLabel]
      exact ⟨hb.raw, (ha.combined hb).metadata⟩
  | true =>
      obtain ⟨label, members, label', others, rfl, rfl⟩ := exists_objects hobj
      rw [merge_object_combined]
      exact ha.combined hb

/-- A tree all of whose maps write a key once. -/
abbrev Keyed := {n : Node // n.MapsDistinct}

namespace Keyed

/-- The tree `lower` with `upper` laid over it. -/
def merge (lower upper : Keyed) : Keyed := ⟨Node.merge lower upper, lower.2.merge upper.2⟩

@[simp] theorem coe_merge (lower upper : Keyed) :
    (lower.merge upper : Node) = Node.merge lower upper := rfl

theorem coe_foldl_merge (base : Keyed) (layers : List Keyed) :
    (layers.foldl merge base : Keyed).1 = (layers.map Subtype.val).foldl Node.merge base := by
  rw [List.foldl_map]
  exact (List.foldl_hom Subtype.val fun lower layer => (coe_merge lower layer).symm).symm

end Keyed

theorem mapsDistinct_literal (source : Source) {v : Json} (hv : v.Distinct) :
    (literal source .empty v).MapsDistinct := by
  have hwell := wellFormed_literal source .empty hv
  have hnodes := (hwell.everywhere.and (inStep_literal source .empty v)).and
    (everywhere_metadata_literal source .empty v)
  refine hwell.keys.and (hnodes.mono ?_)
  rintro m ⟨⟨hm, hraw⟩, hmetadata⟩
  refine ⟨?_, ?_⟩
  · rw [show m.label.raw = m.toJson from hraw]
    exact hm.distinct_toJson
  · rw [show m.label.metadata = .empty from hmetadata]
    exact .object List.nodup_nil nofun

/-! ### Merging once more -/

/-- An object is laid over another without a change, but for repeated sources, when its label is
covered and none of its members changes the member below it. -/
theorem mapLabels_merge_object {label label' : Label} {members others : List (String × Node)}
    (hl : (object label members).MapsDistinct) (hu : (object label' others).MapsDistinct)
    (hlabel : label.Covers label')
    (hmembers : ∀ key w, Members.get? key others = some w →
      ∃ v, Members.get? key members = some v ∧ (merge v w).mapLabels .once = v.mapLabels .once) :
    (merge (object label members) (object label' others)).mapLabels .once =
      (object label members).mapLabels .once := by
  obtain ⟨⟨hm, hd⟩, -⟩ := mapsDistinct_object.1 hl
  obtain ⟨⟨ho, hd'⟩, -⟩ := mapsDistinct_object.1 hu
  rw [merge_object_combined, mapLabels_object, mapLabels_object, hlabel.once_combined hd hd',
    mergeMembers_eq_unionWith hm ho, (Members.mapValues_unionWith_eq_left_iff hm).2 hmembers]

/-- A tree laid over itself, where the metadata below cover its own: of a tree that has been
replaced, the metadata are all that is left. -/
theorem mapLabels_merge_withMetadata_self {metadata : Metadata} (hb : b.MapsDistinct)
    (hd : (Json.object metadata.entries).Distinct)
    (h : (Json.object metadata.entries).Covers (.object b.metadata.entries)) :
    (merge (b.withMetadata metadata) b).mapLabels .once =
      (b.withMetadata metadata).mapLabels .once := by
  induction b using Node.induct generalizing metadata with
  | object label members ih =>
      obtain ⟨-, hmembers⟩ := mapsDistinct_object.1 hb
      have hcovers : Label.Covers { label with metadata := metadata } label :=
        ⟨fun _ hs => hs, Json.covers_self _, h⟩
      refine mapLabels_merge_object (hb.withMetadata hd) hb hcovers fun key w hw => ⟨w, hw, ?_⟩
      have hmem := Members.mem_of_get?_eq_some hw
      have hw' : w.MapsDistinct := hmembers _ hmem
      have hself := ih (key, w) hmem hw' hw'.distinct_metadata (Json.covers_self _)
      rwa [withMetadata_self] at hself
  | _ =>
      rw [merge_of_not_object rfl, metadata_withMetadata,
        Metadata.merged_eq_self hd hb.distinct_metadata h]

theorem mapLabels_merge_self (b : Keyed) :
    (merge b b).mapLabels .once = (b : Node).mapLabels .once := by
  have h := mapLabels_merge_withMetadata_self b.2 b.2.distinct_metadata (Json.covers_self _)
  rwa [withMetadata_self] at h

theorem mapLabels_merge_merge_of_not_object {a b : Keyed}
    (h : ((a : Node).isObject && (b : Node).isObject) = false) :
    (merge (merge a b) b).mapLabels .once = (merge a b).mapLabels .once := by
  have hlabel := b.2.root.2
  rw [merge_of_not_object h]
  exact mapLabels_merge_withMetadata_self b.2 (a.2.root.2.combined hlabel).metadata
    (Label.covers_combined (a : Node).label hlabel).metadata

/-- A tree laid over what it has been merged into changes nothing but how often sources are
named. -/
theorem mapLabels_merge_merge_self (a b : Keyed) :
    (merge (merge a b) b).mapLabels .once = (merge a b).mapLabels .once := by
  obtain ⟨a, ha⟩ := a
  induction a using Node.induct generalizing b with
  | leaf label value => exact mapLabels_merge_merge_of_not_object (a := ⟨_, ha⟩) rfl
  | array label items ih => exact mapLabels_merge_merge_of_not_object (a := ⟨_, ha⟩) rfl
  | object label members ih =>
      obtain ⟨b, hb⟩ := b
      cases hobj : (object label members).isObject && b.isObject with
      | false => exact mapLabels_merge_merge_of_not_object (a := ⟨_, ha⟩) (b := ⟨b, hb⟩) hobj
      | true =>
          obtain ⟨_, _, label', others, heq, rfl⟩ := exists_objects hobj
          cases heq
          obtain ⟨-, hmembers⟩ := mapsDistinct_object.1 ha
          obtain ⟨⟨-, hd'⟩, hothers⟩ := mapsDistinct_object.1 hb
          have hmerged := ha.merge hb
          rw [merge_object_combined] at hmerged ⊢
          refine mapLabels_merge_object hmerged hb (Label.covers_combined label hd') ?_
          intro key w hw
          have hw' := hothers _ (Members.mem_of_get?_eq_some hw)
          rw [get?_mergeMembers, hw]
          -- A member that only the upper tree has is laid over itself.
          cases hv : Members.get? key members with
          | none => exact ⟨w, rfl, mapLabels_merge_self ⟨w, hw'⟩⟩
          | some v =>
              have hmem := Members.mem_of_get?_eq_some hv
              exact ⟨merge v w, rfl, ih (key, v) hmem ⟨w, hw'⟩ (hmembers _ hmem)⟩

/-! ### Folds -/

theorem mapLabels_foldl_replicate (a b : Keyed) (n : Nat) :
    ((List.replicate (n + 1) (b : Node)).foldl merge a).mapLabels .once =
      (merge a b).mapLabels .once := by
  induction n generalizing a with
  | zero => rfl
  | succ n ih =>
      rw [List.replicate_succ, List.foldl_cons]
      exact (ih (a.merge b)).trans (mapLabels_merge_merge_self a b)

/-- A fold whose last layer is repeated differs in nothing but how often sources are named. -/
theorem exists_mergeAll_replicate (layers : List Keyed) (last : Keyed) (n : Nat) :
    ∃ folded again, mergeAll (layers.map Subtype.val ++ [(last : Node)]) = some folded ∧
      mergeAll (layers.map Subtype.val ++ List.replicate (n + 1) (last : Node)) = some again ∧
        again.mapLabels .once = folded.mapLabels .once := by
  cases layers with
  | nil =>
      refine ⟨last, (List.replicate n (last : Node)).foldl merge last, rfl, rfl, ?_⟩
      cases n with
      | zero => rfl
      | succ n => exact (mapLabels_foldl_replicate last last n).trans (mapLabels_merge_self last)
  | cons first rest =>
      refine ⟨(rest.map Subtype.val ++ [(last : Node)]).foldl Node.merge first,
        (rest.map Subtype.val ++ List.replicate (n + 1) (last : Node)).foldl Node.merge first,
        rfl, rfl, ?_⟩
      rw [List.foldl_append, List.foldl_append, ← Keyed.coe_foldl_merge]
      exact mapLabels_foldl_replicate (rest.foldl Keyed.merge first) last n

/-- A layer that is laid on again adds nothing. A value laid over itself is that value, and a layer
laid once more over what it has been laid over leaves it as it is, the order of keys included. With
the layer below as well, both groupings give one value, and it differs from the one without in
nothing but the order of keys. A layer changes nothing exactly where it is covered. The last layer
of a fold may be repeated any number of times: values stay the same, and so do trees with their raw
values and metadata, but for how often a node names a source. -/
theorem repeated_layer_adds_nothing :
    (∀ a : Json, a.Distinct → a.overlay a = a) ∧
    (∀ a b : Json, a.Distinct → b.Distinct →
      (a.overlay b).overlay b = a.overlay b ∧
      (b.overlay a).overlay b = b.overlay (a.overlay b) ∧
      (b.overlay (a.overlay b)).sorted = (a.overlay b).sorted ∧
      (a.overlay b = a ↔ a.Covers b)) ∧
    (∀ (base : Json) (layers : List Json) (last : Json) (n : Nat), base.Distinct →
      (∀ layer ∈ layers, layer.Distinct) → last.Distinct →
      base.overlayAll (layers ++ List.replicate (n + 1) last) =
        base.overlayAll (layers ++ [last])) ∧
    ∀ (layers : List Node) (last : Node) (n : Nat), (∀ layer ∈ layers, layer.MapsDistinct) →
      last.MapsDistinct →
      ∃ folded again, mergeAll (layers ++ [last]) = some folded ∧
        mergeAll (layers ++ List.replicate (n + 1) last) = some again ∧
        again.toJson = folded.toJson ∧ again.mapLabels .once = folded.mapLabels .once := by
  refine ⟨fun a ha => Json.overlay_self ⟨a, ha⟩, fun a b ha hb => ?_, ?_, ?_⟩
  · lift a to Json.Document using ha
    lift b to Json.Document using hb
    exact ⟨Json.overlay_overlay_self a b, Json.overlay_assoc_self a b,
      Json.sorted_overlay_of_covers (a := Json.Document.overlay a b) (Json.covers_overlay a b),
      Json.overlay_eq_self_iff a b⟩
  · intro base layers last n hbase hlayers hlast
    lift base to Json.Document using hbase
    lift layers to List Json.Document using hlayers
    lift last to Json.Document using hlast
    have hsame := Json.Document.overlayAll_append_replicate base layers last n
    simpa [Json.Document.coe_overlayAll] using congrArg Subtype.val hsame
  · intro layers last n hlayers hlast
    lift layers to List Keyed using hlayers
    lift last to Keyed using hlast
    obtain ⟨folded, again, hfolded, hagain, hsame⟩ := exists_mergeAll_replicate layers last n
    refine ⟨folded, again, hfolded, hagain, ?_, hsame⟩
    rw [← toJson_mapLabels .once again, hsame, toJson_mapLabels]

/-- Two layers that reshape each other: one has an object where the other has a number. Below the
sum, the layer on top moves `s`. -/
theorem repeated_layer_adds_nothing_layers :
    lowerLayer.toJson.Distinct ∧ scalarLayer.toJson.Distinct ∧
    lowerLayer.toJson.overlay lowerLayer.toJson = lowerLayer.toJson ∧
    (lowerLayer.toJson.overlay scalarLayer.toJson).overlay scalarLayer.toJson =
      .object [("x", .ofInt 5), ("k", .null), ("s", .string "t")] ∧
    (scalarLayer.toJson.overlay lowerLayer.toJson).overlay scalarLayer.toJson =
      .object [("x", .ofInt 5), ("s", .string "t"), ("k", .null)] ∧
    (scalarLayer.toJson.overlay (lowerLayer.toJson.overlay scalarLayer.toJson)).sorted =
      (lowerLayer.toJson.overlay scalarLayer.toJson).sorted ∧
    ¬ lowerLayer.toJson.Covers scalarLayer.toJson ∧
    lowerLayer.toJson.overlayAll ([upperLayer.toJson] ++ List.replicate 3 scalarLayer.toJson) =
      lowerLayer.toJson.overlayAll [upperLayer.toJson, scalarLayer.toJson] ∧
    lowerLayer.MapsDistinct ∧ upperLayer.MapsDistinct ∧ scalarLayer.MapsDistinct ∧
    ∃ folded again, mergeAll [lowerLayer, upperLayer, scalarLayer] = some folded ∧
      mergeAll ([lowerLayer, upperLayer] ++ List.replicate 3 scalarLayer) = some again ∧
      again.toJson = folded.toJson ∧ again.mapLabels .once = folded.mapLabels .once := by
  have hl : lowerLayer.toJson.Distinct := by decide
  have hu : upperLayer.toJson.Distinct := by decide
  have hs : scalarLayer.toJson.Distinct := by decide
  have hml : lowerLayer.MapsDistinct := mapsDistinct_literal _ (by decide)
  have hmu : upperLayer.MapsDistinct := mapsDistinct_literal _ (by decide)
  have hms : scalarLayer.MapsDistinct := mapsDistinct_literal _ (by decide)
  obtain ⟨hself, hpair, hvalues, htrees⟩ := repeated_layer_adds_nothing
  obtain ⟨hagain, hassoc, hsorted, hcovers⟩ := hpair _ _ hl hs
  refine ⟨hl, hs, hself _ hl, hagain.trans (by decide), hassoc.trans (by decide), hsorted,
    hcovers.not.1 (by decide), ?_, hml, hmu, hms, ?_⟩
  · exact hvalues _ [upperLayer.toJson] _ 2 hl (by simp [hu]) hs
  · exact htrees [lowerLayer, upperLayer] _ 2 (by simp [hml, hmu]) hms

end Node

end LayeredConfig
