import LayeredConfig.Node.Merge
import LayeredConfig.Proofs.Node.Everywhere

/-!
# Merging trees merges values

Trees and plain values are merged by two recursions of their own: one builds the member list
anew and takes every key it has met off the upper tree, the other inserts into the base in place.
On distinct keys both compute `Members.unionWith` on every level, so the value of a merged tree
is the overlay of the values. Raw values are merged as plain values, and trees whose raw values
are in step therefore merge to a tree in step.
-/

namespace LayeredConfig

namespace Members

variable {α : Type}

theorem filter_of_not_mem_keys {key : String} {ms : Members α} (h : key ∉ ms.keys) :
    (ms.filter fun entry => entry.1 ≠ key) = ms := by
  rw [List.filter_eq_self]
  intro entry hentry
  have hne : entry.1 ≠ key := by
    rintro rfl
    exact h (mem_keys_of_mem hentry)
  simpa using hne

/-- On distinct keys, removing the first entry of a key is filtering the key out. -/
theorem erase_eq_filter {key : String} {ms : Members α} (h : ms.Distinct) :
    erase key ms = ms.filter fun entry => entry.1 ≠ key := by
  induction ms with
  | nil => rfl
  | cons entry rest ih =>
      obtain ⟨k, v⟩ := entry
      obtain ⟨hk, hrest⟩ := List.nodup_cons.1 h
      by_cases he : k = key
      · subst he
        rw [List.filter_cons_of_neg (by simp), filter_of_not_mem_keys hk]
        simp [erase]
      · simp [erase, he, ih hrest]

/-- The first key of a union, and the union of the rest with what else the upper map holds. -/
theorem unionWith_cons_left {f : α → α → α} {key : String} {v : α} {rest upper : Members α}
    (h : Distinct ((key, v) :: rest)) :
    unionWith f ((key, v) :: rest) upper =
      (key, (get? key upper).elim v (f v)) ::
        unionWith f rest (upper.filter fun entry => entry.1 ≠ key) := by
  obtain ⟨hkey, _⟩ := List.nodup_cons.1 h
  have hget : ∀ entry ∈ rest,
      get? entry.1 (upper.filter fun entry => entry.1 ≠ key) = get? entry.1 upper := by
    intro entry hentry
    have hne : entry.1 ≠ key := by
      rintro rfl
      have hin : entry.1 ∈ rest.keys := mem_keys_of_mem hentry
      exact hkey hin
    exact get?_filter (p := fun k => k ≠ key) (decide_eq_true hne) upper
  rw [unionWith, unionWith, List.map_cons, List.cons_append, List.filter_filter]
  congr 2
  · apply List.map_congr_left
    intro entry hentry
    rw [hget entry hentry]
  · apply List.filter_congr
    intro entry _
    by_cases he : entry.1 = key <;> simp [he]

end Members

namespace Json

/-- Overlaying members one after the other is the union of both maps. -/
theorem overlayMembers_eq_unionWith {members upper : List (String × Json)}
    (hm : Members.Distinct members) (hu : Members.Distinct upper) :
    overlayMembers members upper = Members.unionWith overlay members upper := by
  induction upper generalizing members with
  | nil => rw [overlayMembers_nil, Members.unionWith_nil]
  | cons entry rest ih =>
      obtain ⟨key, value⟩ := entry
      obtain ⟨_, hrest⟩ := List.nodup_cons.1 hu
      rw [overlayMembers, Members.unionWith_cons hm hu]
      cases hget : Members.get? key members with
      | none => exact ih hm.insert hrest
      | some held => exact ih hm.insert hrest

/-- Two objects overlay to the union of their members. -/
theorem overlay_eq_unionWith {members upper : List (String × Json)}
    (hm : (object members).Distinct) (hu : (object upper).Distinct) :
    overlay (object members) (object upper) = object (Members.unionWith overlay members upper) := by
  rw [overlay_object, overlayMembers_eq_unionWith hm.members hu.members]

end Json

namespace Node

/-- Matching members key by key is the union of both maps. -/
theorem mergeMembers_eq_unionWith {members others : List (String × Node)}
    (hm : Members.Distinct members) (ho : Members.Distinct others) :
    mergeMembers members others = Members.unionWith merge members others := by
  induction members generalizing others with
  | nil => rw [mergeMembers, Members.unionWith_nil_left]
  | cons entry rest ih =>
      obtain ⟨key, child⟩ := entry
      obtain ⟨_, hrest⟩ := List.nodup_cons.1 hm
      rw [mergeMembers, Members.unionWith_cons_left hm]
      cases hget : Members.get? key others with
      | none =>
          have hkey := Members.get?_eq_none_iff.1 hget
          rw [Members.filter_of_not_mem_keys hkey]
          simp [ih hrest ho]
      | some other =>
          rw [← Members.erase_eq_filter ho]
          simp [ih hrest ho.erase]

theorem mem_mergeMembers {members others : List (String × Node)} {entry : String × Node}
    (h : entry ∈ mergeMembers members others) :
    entry ∈ members ∨ entry ∈ others ∨
      ∃ v w, (entry.1, v) ∈ members ∧ (entry.1, w) ∈ others ∧ entry.2 = merge v w := by
  induction members generalizing others with
  | nil => exact .inr (.inl (by simpa [mergeMembers] using h))
  | cons first rest ih =>
      obtain ⟨key, child⟩ := first
      rw [mergeMembers] at h
      cases hget : Members.get? key others with
      | none =>
          rw [hget] at h
          rcases List.mem_cons.1 h with rfl | h
          · simp
          · rcases ih h with h | h | ⟨v, w, hv, hw, heq⟩
            · exact .inl (List.mem_cons_of_mem _ h)
            · exact .inr (.inl h)
            · exact .inr (.inr ⟨v, w, List.mem_cons_of_mem _ hv, hw, heq⟩)
      | some other =>
          rw [hget] at h
          have hsub := (Members.erase_sublist key others).subset
          rcases List.mem_cons.1 h with rfl | h
          · have hother := Members.mem_of_get?_eq_some hget
            exact .inr (.inr ⟨child, other, List.mem_cons_self, hother, rfl⟩)
          · rcases ih h with h | h | ⟨v, w, hv, hw, heq⟩
            · exact .inl (List.mem_cons_of_mem _ h)
            · exact .inr (.inl (hsub h))
            · exact .inr (.inr ⟨v, w, List.mem_cons_of_mem _ hv, hsub hw, heq⟩)

/-! ### What merging keeps -/

theorem exists_objects {a b : Node} (h : (a.isObject && b.isObject) = true) :
    ∃ label members label' others, a = object label members ∧ b = object label' others := by
  cases a <;> cases b <;> simp_all [isObject]

theorem isObject_merge (a b : Node) : (merge a b).isObject = b.isObject := by
  cases a <;> cases b <;> simp [merge, isObject, withMetadata, withLabel]

/-- Where the upper tree replaces the lower one, only the root is new. -/
theorem everywhere_merge_of_not_object {P : Node → Prop} {a b : Node}
    (h : (a.isObject && b.isObject) = false) (hroot : P (merge a b)) (hb : b.Everywhere P) :
    (merge a b).Everywhere P := by
  refine everywhere_iff.2 ⟨hroot, ?_⟩
  rw [merge_of_not_object h, children_withMetadata]
  exact (everywhere_iff.1 hb).2

/-- A property of nodes that merging keeps at the root is kept at every node. -/
theorem Everywhere.merge {P : Node → Prop} (step : ∀ a b, P a → P b → P (Node.merge a b))
    {a b : Node} (ha : a.Everywhere P) (hb : b.Everywhere P) : (Node.merge a b).Everywhere P := by
  induction a using Node.induct generalizing b with
  | leaf label value => exact everywhere_merge_of_not_object rfl (step _ _ ha.root hb.root) hb
  | array label items ih =>
      exact everywhere_merge_of_not_object rfl (step _ _ ha.root hb.root) hb
  | object label members ih =>
      have hroot := step _ _ ha.root hb.root
      cases hobj : (object label members).isObject && b.isObject with
      | false => exact everywhere_merge_of_not_object hobj hroot hb
      | true =>
          obtain ⟨_, _, label', others, heq, rfl⟩ := exists_objects hobj
          cases heq
          have hmembers := (everywhere_object.1 ha).2
          have hothers := (everywhere_object.1 hb).2
          rw [merge_object] at hroot ⊢
          refine everywhere_object.2 ⟨hroot, fun entry hentry => ?_⟩
          -- A member comes from one side as it is, or is merged from both.
          rcases mem_mergeMembers hentry with h | h | ⟨v, w, hv, hw, hentry⟩
          · exact hmembers entry h
          · exact hothers entry h
          · rw [hentry]
            exact ih (entry.1, v) hv (hmembers _ hv) (hothers _ hw)

/-- A property of all layers that laying one more of them on top keeps is one of their fold. -/
theorem of_mergeAll {Q : Node → Prop} {layers : List Node} {folded : Node}
    (hlayers : ∀ layer ∈ layers, Q layer)
    (hmerge : ∀ lower, Q lower → ∀ layer ∈ layers, Q (Node.merge lower layer))
    (hfold : mergeAll layers = some folded) : Q folded := by
  cases layers with
  | nil => cases hfold
  | cons first rest =>
      obtain rfl := Option.some.inj hfold
      refine List.foldlRecOn rest Node.merge (hlayers first List.mem_cons_self) ?_
      exact fun lower hlower layer hlayer =>
        hmerge lower hlower layer (List.mem_cons_of_mem first hlayer)

theorem KeysDistinct.merge {a b : Node} (ha : a.KeysDistinct) (hb : b.KeysDistinct) :
    (Node.merge a b).KeysDistinct := by
  refine Everywhere.merge (fun a b ha hb => ?_) ha hb
  cases hobj : a.isObject && b.isObject with
  | false => rwa [merge_of_not_object hobj, members?_withMetadata]
  | true =>
      obtain ⟨label, members, label', others, rfl, rfl⟩ := exists_objects hobj
      change Members.Distinct members at ha
      change Members.Distinct others at hb
      rw [merge_object, mergeMembers_eq_unionWith ha hb]
      exact ha.unionWith hb

theorem PrimitiveLeaves.merge {a b : Node} (ha : a.PrimitiveLeaves) (hb : b.PrimitiveLeaves) :
    (Node.merge a b).PrimitiveLeaves := by
  refine Everywhere.merge (fun a b _ hb => ?_) ha hb
  cases hobj : a.isObject && b.isObject with
  | false => rwa [merge_of_not_object hobj, value?_withMetadata]
  | true =>
      obtain ⟨label, members, label', others, rfl, rfl⟩ := exists_objects hobj
      rw [merge_object]
      rfl

theorem WellFormed.merge {a b : Node} (ha : a.WellFormed) (hb : b.WellFormed) :
    (Node.merge a b).WellFormed :=
  ⟨ha.keys.merge hb.keys, ha.leaves.merge hb.leaves⟩

/-! ### Values of merged trees -/

/-- The value of a merged tree is the upper value laid over the lower one. -/
theorem toJson_merge {a b : Node} (ha : a.WellFormed) (hb : b.WellFormed) :
    (merge a b).toJson = a.toJson.overlay b.toJson := by
  induction a using Node.induct generalizing b with
  | leaf label value =>
      rw [merge_of_not_object rfl, toJson_withMetadata,
        Json.overlay_of_base_not_object (ha.members?_toJson rfl)]
  | array label items ih =>
      rw [merge_of_not_object rfl, toJson_withMetadata,
        Json.overlay_of_base_not_object (ha.members?_toJson rfl)]
  | object label members ih =>
      cases hobj : (object label members).isObject && b.isObject with
      | false =>
          have hb' : b.isObject = false := by simpa [isObject] using hobj
          rw [merge_of_not_object hobj, toJson_withMetadata,
            Json.overlay_of_layer_not_object (hb.members?_toJson hb')]
      | true =>
          obtain ⟨_, _, label', others, heq, rfl⟩ := exists_objects hobj
          cases heq
          obtain ⟨hm, hmembers⟩ := wellFormed_object.1 ha
          obtain ⟨ho, hothers⟩ := wellFormed_object.1 hb
          have hunion : Members.mapValues toJson (Members.unionWith merge members others) =
              Members.unionWith Json.overlay (Members.mapValues toJson members)
                (Members.mapValues toJson others) := by
            apply Members.mapValues_unionWith
            intro entry hentry w hw
            have hother := hothers _ (Members.mem_of_get?_eq_some hw)
            exact ih entry hentry (hmembers entry hentry) hother
          have hvalues := ha.distinct_toJson
          have hlayer := hb.distinct_toJson
          rw [toJson_object] at hvalues hlayer
          rw [merge_object, mergeMembers_eq_unionWith hm ho, toJson_object, toJson_object,
            toJson_object, hunion, Json.overlay_eq_unionWith hvalues hlayer]

/-- Folding layers over a tree lays their values one after the other over its value. -/
theorem toJson_foldl_merge {base : Node} {layers : List Node} (hb : base.WellFormed)
    (hl : ∀ layer ∈ layers, layer.WellFormed) :
    (layers.foldl merge base).toJson = Json.overlayAll base.toJson (layers.map toJson) := by
  induction layers generalizing base with
  | nil => rfl
  | cons layer rest ih =>
      obtain ⟨hlayer, hrest⟩ := List.forall_mem_cons.1 hl
      rw [List.foldl_cons, ih (hb.merge hlayer) hrest, toJson_merge hb hlayer]
      rfl

/-- Trees in step merge to a tree in step. -/
theorem InStep.merge {a b : Node} (ha : a.WellFormed) (hb : b.WellFormed) (hsa : a.InStep)
    (hsb : b.InStep) : (Node.merge a b).InStep := by
  have hstep : ∀ a b : Node, (a.WellFormed ∧ a.raw = a.toJson) →
      (b.WellFormed ∧ b.raw = b.toJson) →
        ((Node.merge a b).WellFormed ∧ (Node.merge a b).raw = (Node.merge a b).toJson) := by
    rintro a b ⟨ha, hra⟩ ⟨hb, hrb⟩
    refine ⟨ha.merge hb, ?_⟩
    cases hobj : a.isObject && b.isObject with
    | false => rw [merge_of_not_object hobj, raw_withMetadata, toJson_withMetadata, hrb]
    | true =>
        rw [toJson_merge ha hb, ← hra, ← hrb]
        obtain ⟨label, members, label', others, rfl, rfl⟩ := exists_objects hobj
        rw [merge_object]
        rfl
  have hall := Everywhere.merge hstep (ha.everywhere.and hsa) (hb.everywhere.and hsb)
  exact hall.mono fun _ h => h.2

/-- Merging trees and overlaying values agree, for two trees and for a fold of layers, and trees
whose raw values are in step stay so. -/
theorem merge_refines_overlay :
    (∀ a b : Node, a.WellFormed → b.WellFormed →
      (merge a b).toJson = a.toJson.overlay b.toJson) ∧
    (∀ (first : Node) (rest : List Node), (∀ layer ∈ first :: rest, layer.WellFormed) →
      ∃ folded, mergeAll (first :: rest) = some folded ∧
        folded.toJson = Json.overlayAll first.toJson (rest.map toJson)) ∧
    (∀ a b : Node, a.WellFormed → b.WellFormed → a.InStep → b.InStep → (merge a b).InStep) := by
  refine ⟨fun a b => toJson_merge, fun first rest h => ?_, fun a b => InStep.merge⟩
  obtain ⟨hfirst, hrest⟩ := List.forall_mem_cons.1 h
  exact ⟨_, rfl, toJson_foldl_merge hfirst hrest⟩

/-- A layer with an object under `x`. -/
def lowerLayer : Node :=
  literal (.literal 0 .null) .empty
    (.object [("x", .object [("p", .ofInt 1), ("q", .ofInt 1)]), ("k", .null)])

/-- A layer with an object under `x`, too. -/
def upperLayer : Node :=
  literal (.literal 1 .null) .empty
    (.object [("n", .bool true), ("x", .object [("r", .null), ("q", .ofInt 2)])])

theorem merge_refines_overlay_layers :
    lowerLayer.WellFormed ∧ upperLayer.WellFormed ∧ lowerLayer.InStep ∧ upperLayer.InStep ∧
    (merge lowerLayer upperLayer).toJson = .object
      [("x", .object [("p", .ofInt 1), ("q", .ofInt 2), ("r", .null)]), ("k", .null),
        ("n", .bool true)] ∧
    (∃ folded, mergeAll [lowerLayer, upperLayer, lowerLayer] = some folded ∧
      folded.toJson = Json.overlayAll lowerLayer.toJson [upperLayer.toJson, lowerLayer.toJson]) ∧
    (merge lowerLayer upperLayer).InStep := by
  have hl : lowerLayer.WellFormed := by decide
  have hu : upperLayer.WellFormed := by decide
  have hsl : lowerLayer.InStep := inStep_literal _ _ _
  have hsu : upperLayer.InStep := inStep_literal _ _ _
  obtain ⟨hpair, hfold, hstep⟩ := merge_refines_overlay
  refine ⟨hl, hu, hsl, hsu, (hpair _ _ hl hu).trans (by decide), ?_, hstep _ _ hl hu hsl hsu⟩
  exact hfold lowerLayer [upperLayer, lowerLayer] (by simp [hl, hu])

end Node

end LayeredConfig
