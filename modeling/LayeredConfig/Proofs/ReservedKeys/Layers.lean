import LayeredConfig.Proofs.ReservedKeys.Merged
import LayeredConfig.Proofs.ReservedKeys.Valid

/-!
# Where violations come from

Merging puts nothing under a key or a path that neither layer has it under, and it takes no mark of
the upper layer off. So a member of the merged tree that violates the reservation does so in one of
the layers, in the same place (`violatesAt_of_merge`): a member that only one layer holds is taken
over as it is, and one that both hold violates in the upper layer. Folding layers adds no violation
to theirs (`mem_violations_of_mergeAll`), and layers that all pass validation fold to a tree that
passes (`validate_of_mem_violations`).
-/

namespace LayeredConfig

namespace ReservedKeys

variable {marker : String}

/-- A member that violates the reservation over a lower one does so by itself. -/
theorem violates_of_merge {key : String} {held child : Node}
    (hmetadata : child.metadata.entries.Distinct)
    (h : violates marker (key, held.merge child) = true) : violates marker (key, child) = true := by
  simp only [violates, Bool.and_eq_true, Bool.not_eq_true', ← Bool.not_eq_true] at h ⊢
  obtain ⟨hkey, hflag⟩ := h
  rw [Node.metadata_merge, Metadata.flag_merged hmetadata] at hflag
  exact ⟨hkey, fun hchild => hflag (.inl hchild)⟩

theorem violatesAt_of_merge {lower upper : Node} (hmetadata : upper.MetadataDistinct)
    {path : List Position} {key : String} (h : ViolatesAt marker (lower.merge upper) path key) :
    ViolatesAt marker lower path key ∨ ViolatesAt marker upper path key := by
  induction lower using Node.induct generalizing upper path with
  | leaf label value =>
      rw [Node.merge_of_not_object rfl, violatesAt_withMetadata] at h
      exact .inr h
  | array label items ih =>
      rw [Node.merge_of_not_object rfl, violatesAt_withMetadata] at h
      exact .inr h
  | object label members ih =>
      cases hobj : (Node.object label members).isObject && upper.isObject with
      | false =>
          rw [Node.merge_of_not_object hobj, violatesAt_withMetadata] at h
          exact .inr h
      | true =>
          obtain ⟨_, _, label', others, heq, rfl⟩ := Node.exists_objects hobj
          cases heq
          have hbelow := (Node.everywhere_object.1 hmetadata).2
          rw [Node.merge_object] at h
          cases path with
          | nil =>
              obtain ⟨child, hchild, hviolates⟩ := violatesAt_nil.1 h
              rcases Node.mem_mergeMembers hchild with hl | hu | ⟨v, w, -, hw, rfl⟩
              · exact .inl (violatesAt_nil.2 ⟨child, hl, hviolates⟩)
              · exact .inr (violatesAt_nil.2 ⟨child, hu, hviolates⟩)
              · have hupper := violates_of_merge (hbelow _ hw).root hviolates
                exact .inr (violatesAt_nil.2 ⟨w, hw, hupper⟩)
          | cons position path =>
              obtain ⟨k, child, rfl, hchild, hviolates⟩ := violatesAt_cons.1 h
              rcases Node.mem_mergeMembers hchild with hl | hu | ⟨v, w, hv, hw, rfl⟩
              · exact .inl (violatesAt_cons.2 ⟨k, child, rfl, hl, hviolates⟩)
              · exact .inr (violatesAt_cons.2 ⟨k, child, rfl, hu, hviolates⟩)
              · rcases ih (k, v) hv (hbelow _ hw) hviolates with hlower | hupper
                · exact .inl (violatesAt_cons.2 ⟨k, v, rfl, hv, hlower⟩)
                · exact .inr (violatesAt_cons.2 ⟨k, w, rfl, hw, hupper⟩)

theorem mem_violations_of_merge {lower upper : Node} (hmetadata : upper.MetadataDistinct)
    {violation : String × List Position} (h : violation ∈ violations marker (lower.merge upper)) :
    violation ∈ violations marker lower ∨ violation ∈ violations marker upper := by
  obtain ⟨key, path⟩ := violation
  obtain ⟨below, rfl, hviolates⟩ := mem_violations_iff.1 h
  refine (violatesAt_of_merge hmetadata hviolates).imp (fun hl => ?_) (fun hu => ?_)
  · exact mem_violations_iff.2 ⟨below, rfl, hl⟩
  · exact mem_violations_iff.2 ⟨below, rfl, hu⟩

/-- Every violation of a fold is one of its layers, under the same path and key. -/
theorem mem_violations_of_mergeAll {layers : List Node} {folded : Node}
    (hmetadata : ∀ layer ∈ layers, layer.MetadataDistinct)
    (hfold : Node.mergeAll layers = some folded) {violation : String × List Position}
    (h : violation ∈ violations marker folded) :
    ∃ layer ∈ layers, violation ∈ violations marker layer := by
  refine Node.of_mergeAll (Q := fun n => violation ∈ violations marker n →
    ∃ layer ∈ layers, violation ∈ violations marker layer) ?_ ?_ hfold h
  · exact fun layer hlayer hmem => ⟨layer, hlayer, hmem⟩
  · intro lower hlower upper hupper hmem
    rcases mem_violations_of_merge (hmetadata upper hupper) hmem with hmem | hmem
    · exact hlower hmem
    · exact ⟨upper, hupper, hmem⟩

/-- A tree passes validation when all its violations are those of layers that pass. -/
theorem validate_of_mem_violations {n : Node} {layers : List Node}
    (hvalid : ∀ layer ∈ layers, validate marker layer = .ok ())
    (h : ∀ violation ∈ violations marker n, ∃ layer ∈ layers, violation ∈ violations marker layer) :
    validate marker n = .ok () := by
  rw [validate_eq_ok_iff_violations]
  by_cases hm : marker = ""
  · exact .inl hm
  refine .inr (List.eq_nil_iff_forall_not_mem.2 fun violation hviolation => ?_)
  obtain ⟨layer, hlayer, hmem⟩ := h violation hviolation
  have hnone := ((validate_eq_ok_iff_violations layer).1 (hvalid layer hlayer)).resolve_left hm
  rw [hnone] at hmem
  cases hmem

theorem validate_merge {lower upper : Node} (hmetadata : upper.MetadataDistinct)
    (hlower : validate marker lower = .ok ()) (hupper : validate marker upper = .ok ()) :
    validate marker (lower.merge upper) = .ok () := by
  have hvalid : ∀ layer ∈ [lower, upper], validate marker layer = .ok () := by
    simp [hlower, hupper]
  refine validate_of_mem_violations hvalid fun violation hviolation => ?_
  rcases mem_violations_of_merge hmetadata hviolation with hmem | hmem
  · exact ⟨lower, List.mem_cons_self, hmem⟩
  · exact ⟨upper, List.mem_cons_of_mem _ List.mem_cons_self, hmem⟩

/-- Merging makes no violation: each one of a merged tree is found in one of the two trees, under
the same path and key. So two trees that pass validation merge to one that passes, and so does the
fold of any number of layers. -/
theorem violations_come_from_layers :
    (∀ lower upper : Node, upper.MetadataDistinct → ∀ key path,
      (key, path) ∈ violations marker (lower.merge upper) →
        (key, path) ∈ violations marker lower ∨ (key, path) ∈ violations marker upper) ∧
    (∀ lower upper : Node, upper.MetadataDistinct → validate marker lower = .ok () →
      validate marker upper = .ok () → validate marker (lower.merge upper) = .ok ()) ∧
    (∀ (first : Node) (rest : List Node),
      (∀ layer ∈ first :: rest, layer.MetadataDistinct ∧ validate marker layer = .ok ()) →
        ∃ folded, Node.mergeAll (first :: rest) = some folded ∧
          validate marker folded = .ok ()) := by
  refine ⟨fun lower upper hmetadata key path => mem_violations_of_merge hmetadata,
    fun lower upper => validate_merge, fun first rest hlayers => ?_⟩
  refine ⟨_, rfl, validate_of_mem_violations (fun layer hlayer => (hlayers layer hlayer).2) ?_⟩
  exact fun violation =>
    mem_violations_of_mergeAll (fun layer hlayer => (hlayers layer hlayer).1) rfl

/-- A layer without members under reserved keys. -/
def portLayer : Node :=
  .literal (.literal 2 .null) .empty (.object [("db", .object [("port", .null)])])

/-- Of two stray keys one is left in the merged tree, and it stands in the lower layer; the other is
covered by an unescaped member of the upper one. -/
theorem violations_come_from_layers_folded :
    (unescapedLayer.MetadataDistinct ∧
      ("$port", [.root, .key "db"]) ∈ violations "$" (straysLayer.merge unescapedLayer) ∧
      (("$port", [.root, .key "db"]) ∈ violations "$" straysLayer ∨
        ("$port", [.root, .key "db"]) ∈ violations "$" unescapedLayer)) ∧
    (validate "$" portLayer = .ok () ∧ validate "$" unescapedLayer = .ok () ∧
      validate "$" (portLayer.merge unescapedLayer) = .ok ()) ∧
    ∃ folded, Node.mergeAll [portLayer, unescapedLayer, portLayer] = some folded ∧
      validate "$" folded = .ok () := by
  have hport : portLayer.MetadataDistinct := by decide
  have hunescaped : unescapedLayer.MetadataDistinct := by decide
  have hvalid : validate "$" portLayer = .ok () := rfl
  have hvalid' : validate "$" unescapedLayer = .ok () := rfl
  have hmem :
      ("$port", [.root, .key "db"]) ∈ violations "$" (straysLayer.merge unescapedLayer) := by decide
  obtain ⟨hfrom, hpair, hfold⟩ := @violations_come_from_layers "$"
  refine ⟨⟨hunescaped, hmem, hfrom _ _ hunescaped _ _ hmem⟩, ⟨hvalid, hvalid', ?_⟩, ?_⟩
  · exact hpair _ _ hunescaped hvalid hvalid'
  · refine hfold portLayer [unescapedLayer, portLayer] fun layer hlayer => ?_
    simp only [List.mem_cons, List.not_mem_nil, or_false] at hlayer
    rcases hlayer with rfl | rfl | rfl
    · exact ⟨hport, hvalid⟩
    · exact ⟨hunescaped, hvalid'⟩
    · exact ⟨hport, hvalid⟩

end ReservedKeys

end LayeredConfig
