import LayeredConfig.Proofs.Merge.Values
import LayeredConfig.Proofs.Node.Labels
import Mathlib.Data.Set.List

/-!
# Regrouping a fold of layers

Folding layers from the left is the contract; the question is when another grouping gives the same.
A path is contested when the lower and the upper of three values hold objects there and the middle
one holds something else: folded from the left the middle value wipes the lower object out, grouped
the other way the lower object survives under the upper one. The main statement is
`Json.overlay_overlay_eq_iff`: both groupings agree exactly when, at every contested path, the lower
object adds nothing to the upper one. Trees without a contested path regroup with their sources and,
where raw values are in step, with their raw values.
-/

namespace LayeredConfig

namespace Json

/-- The value at a path of keys, followed through objects alone. -/
def at? (v : Json) : List String → Option Json
  | [] => some v
  | key :: rest => (v.member? key).bind fun child => child.at? rest

/-- At `path` the three values hold `x`, `y` and `z`: two objects, and between them a value that
is none. -/
structure Contested (a b c : Json) (path : List String) (x y z : Json) : Prop where
  lower : a.at? path = some x
  middle : b.at? path = some y
  upper : c.at? path = some z
  lower_type : x.type = .object
  middle_type : y.type ≠ .object
  upper_type : z.type = .object

/-! ### Objects among values -/

theorem members?_eq_none_iff {v : Json} : v.members? = none ↔ v.type ≠ .object := by
  cases v <;> simp [members?, type]

/-- Only objects lead anywhere. -/
theorem type_of_at?_cons {v x : Json} {key : String} {rest : List String}
    (h : v.at? (key :: rest) = some x) : v.type = .object := by
  cases v with
  | object members => rfl
  | _ => simp [at?, member?, members?] at h

theorem at?_object_cons (members : List (String × Json)) (key : String) (rest : List String) :
    (object members).at? (key :: rest) =
      (Members.get? key members).bind fun child => child.at? rest := by
  rw [at?]
  rfl

theorem Distinct.at? {v x : Json} {path : List String} (hv : v.Distinct)
    (h : v.at? path = some x) : x.Distinct := by
  induction path generalizing v with
  | nil => exact Option.some.inj h ▸ hv
  | cons key rest ih =>
      cases v with
      | object members =>
          rw [at?_object_cons, Option.bind_eq_some_iff] at h
          obtain ⟨child, hchild, h⟩ := h
          exact ih (hv.member (Members.mem_of_get?_eq_some hchild)) h
      | _ => cases type_of_at?_cons h

theorem Distinct.overlay {a b : Json} (ha : a.Distinct) (hb : b.Distinct) :
    (Json.overlay a b).Distinct := by
  induction a using Json.induct generalizing b with
  | object members ih =>
      by_cases hobj : b.type = .object
      · cases b with
        | object upper =>
            rw [overlay_eq_unionWith ha hb]
            refine .object (ha.members.unionWith hb.members) fun key v hmem => ?_
            rcases Members.mem_unionWith hmem with h | h | ⟨x, y, hx, hy, heq⟩
            · exact ha.member h
            · exact hb.member h
            · rw [show v = Json.overlay x y from heq]
              exact ih (key, x) hx (ha.member hx) (hb.member hy)
        | _ => simp [type] at hobj
      · rwa [overlay_of_layer_not_object (members?_eq_none_iff.2 hobj)]
  | _ => rwa [overlay_of_base_not_object rfl]

/-! ### Layers of documents -/

namespace Document

/-- The document `base` with `layer` laid over it. -/
def overlay (base layer : Document) : Document := ⟨base.1.overlay layer, base.2.overlay layer.2⟩

@[simp] theorem coe_overlay (base layer : Document) :
    (base.overlay layer : Json) = (base : Json).overlay layer := rfl

/-- The document `base` under all layers, the last one on top. -/
def overlayAll (base : Document) (layers : List Document) : Document := layers.foldl overlay base

theorem coe_overlayAll (base : Document) (layers : List Document) :
    (base.overlayAll layers : Json) = (base : Json).overlayAll (layers.map Subtype.val) := by
  rw [overlayAll, Json.overlayAll, List.foldl_map]
  exact (List.foldl_hom Subtype.val fun lower layer => (coe_overlay lower layer).symm).symm

end Document

theorem Distinct.overlayAll {base : Json} {layers : List Json} (hbase : base.Distinct)
    (h : ∀ layer ∈ layers, layer.Distinct) : (base.overlayAll layers).Distinct := by
  lift base to Document using hbase
  lift layers to List Document using h
  rw [← Document.coe_overlayAll]
  exact (Document.overlayAll base layers).2

/-! ### Contested paths -/

theorem Contested.lower_object {a b c x y z : Json} {path : List String}
    (h : Contested a b c path x y z) : a.type = .object := by
  cases path with
  | nil =>
      obtain rfl : a = x := Option.some.inj h.lower
      exact h.lower_type
  | cons key rest => exact type_of_at?_cons h.lower

theorem Contested.upper_object {a b c x y z : Json} {path : List String}
    (h : Contested a b c path x y z) : c.type = .object := by
  cases path with
  | nil =>
      obtain rfl : c = z := Option.some.inj h.upper
      exact h.upper_type
  | cons key rest => exact type_of_at?_cons h.upper

/-- Where the middle value is no object, nothing below the root is contested. -/
theorem Contested.eq_of_middle {a b c x y z : Json} {path : List String}
    (h : Contested a b c path x y z) (hb : b.type ≠ .object) : a = x ∧ c = z := by
  cases path with
  | nil => exact ⟨Option.some.inj h.lower, Option.some.inj h.upper⟩
  | cons key rest => exact absurd (type_of_at?_cons h.middle) hb

theorem contested_object_cons {as bs cs : List (String × Json)} {key : String}
    {rest : List String} {x y z : Json} :
    Contested (object as) (object bs) (object cs) (key :: rest) x y z ↔
      ∃ a b c, Members.get? key as = some a ∧ Members.get? key bs = some b ∧
        Members.get? key cs = some c ∧ Contested a b c rest x y z := by
  constructor
  · rintro ⟨hx, hy, hz, hxt, hyt, hzt⟩
    rw [at?_object_cons, Option.bind_eq_some_iff] at hx hy hz
    obtain ⟨a, ha, hx⟩ := hx
    obtain ⟨b, hb, hy⟩ := hy
    obtain ⟨c, hc, hz⟩ := hz
    exact ⟨a, b, c, ha, hb, hc, hx, hy, hz, hxt, hyt, hzt⟩
  · rintro ⟨a, b, c, ha, hb, hc, hx, hy, hz, hxt, hyt, hzt⟩
    refine ⟨?_, ?_, ?_, hxt, hyt, hzt⟩
    · rw [at?_object_cons, ha]
      exact hx
    · rw [at?_object_cons, hb]
      exact hy
    · rw [at?_object_cons, hc]
      exact hz

/-- Three objects are contested exactly below a key that all of them hold. -/
theorem forall_contested_object_iff {as bs cs : List (String × Json)} {P : Json → Json → Prop} :
    (∀ path x y z, Contested (object as) (object bs) (object cs) path x y z → P x z) ↔
      ∀ key a b c, Members.get? key as = some a → Members.get? key bs = some b →
        Members.get? key cs = some c → ∀ path x y z, Contested a b c path x y z → P x z := by
  constructor
  · intro h key a b c ha hb hc path x y z hcon
    exact h (key :: path) x y z (contested_object_cons.2 ⟨a, b, c, ha, hb, hc, hcon⟩)
  · intro h path x y z hcon
    cases path with
    | nil =>
        obtain rfl : object bs = y := Option.some.inj hcon.middle
        exact absurd rfl hcon.middle_type
    | cons key rest =>
        obtain ⟨a, b, c, ha, hb, hc, hcon⟩ := contested_object_cons.1 hcon
        exact h key a b c ha hb hc rest x y z hcon

/-! ### Regrouping values -/

theorem overlay_assoc_of_lower_not_object {a : Json} (h : a.type ≠ .object) (b c : Json) :
    (a.overlay b).overlay c = a.overlay (b.overlay c) := by
  have ha := members?_eq_none_iff.2 h
  rw [overlay_of_base_not_object ha, overlay_of_base_not_object ha]

theorem overlay_assoc_of_upper_not_object {c : Json} (h : c.type ≠ .object) (a b : Json) :
    (a.overlay b).overlay c = a.overlay (b.overlay c) := by
  have hc := members?_eq_none_iff.2 h
  rw [overlay_of_layer_not_object hc, overlay_of_layer_not_object hc,
    overlay_of_layer_not_object hc]

theorem overlay_object_assoc_iff {as bs cs : List (String × Json)} (ha : (object as).Distinct)
    (hb : (object bs).Distinct) (hc : (object cs).Distinct) :
    ((object as).overlay (object bs)).overlay (object cs) =
        (object as).overlay ((object bs).overlay (object cs)) ↔
      ∀ key a b c, Members.get? key as = some a → Members.get? key bs = some b →
        Members.get? key cs = some c → (a.overlay b).overlay c = a.overlay (b.overlay c) := by
  have hab := ha.overlay hb
  have hbc := hb.overlay hc
  rw [overlay_eq_unionWith ha hb] at hab ⊢
  rw [overlay_eq_unionWith hb hc] at hbc ⊢
  rw [overlay_eq_unionWith hab hc, overlay_eq_unionWith ha hbc, object.injEq]
  have h := Members.mapValues_unionWith_assoc_iff (f := overlay) (g := id) ha.members hb.members
    hc.members
  simpa [Members.mapValues] using h

/-- Both groupings of three documents agree exactly when, at every contested path, the lower object
adds nothing to the upper one. -/
theorem overlay_overlay_eq_iff (a b c : Document) :
    ((a : Json).overlay b).overlay c = (a : Json).overlay ((b : Json).overlay c) ↔
      ∀ path x y z, Contested a b c path x y z → x.overlay z = z := by
  induction a using Document.induct generalizing b c with
  | object as ha ih =>
      obtain ⟨b, hb⟩ := b
      obtain ⟨c, hc⟩ := c
      by_cases hct : c.type = .object
      · by_cases hbt : b.type = .object
        · cases b with
          | object bs =>
              cases c with
              | object cs =>
                  rw [overlay_object_assoc_iff ha hb hc,
                    forall_contested_object_iff (P := fun x z => x.overlay z = z)]
                  refine forall_congr' fun key => forall_congr' fun a => forall_congr' fun b =>
                    forall_congr' fun c => forall_congr' fun hka => forall_congr' fun hkb =>
                    forall_congr' fun hkc => ?_
                  have hmb := Members.mem_of_get?_eq_some hkb
                  have hmc := Members.mem_of_get?_eq_some hkc
                  exact ih (key, a) (Members.mem_of_get?_eq_some hka) ⟨b, hb.member hmb⟩
                    ⟨c, hc.member hmc⟩
              | _ => simp [type] at hct
          | _ => simp [type] at hbt
        · -- The root is the only contested path: from the left, `b` wipes `a` out.
          have hbm := members?_eq_none_iff.2 hbt
          rw [overlay_of_layer_not_object hbm, overlay_of_base_not_object hbm]
          constructor
          · intro h path x y z hcon
            obtain ⟨rfl, rfl⟩ := hcon.eq_of_middle hbt
            exact h.symm
          · intro h
            exact (h [] (object as) b c ⟨rfl, rfl, rfl, rfl, hbt, hct⟩).symm
      · refine iff_of_true (overlay_assoc_of_upper_not_object hct _ _) ?_
        exact fun path x y z hcon => absurd hcon.upper_object hct
  | other a ha =>
      refine iff_of_true (overlay_assoc_of_lower_not_object ha _ _) ?_
      exact fun path x y z hcon => absurd hcon.lower_object ha

end Json

namespace Node

theorem WellFormed.type_toJson {n : Node} (h : n.WellFormed) :
    n.toJson.type = .object ↔ n.isObject = true := by
  cases hobj : n.isObject with
  | false => simpa using Json.members?_eq_none_iff.1 (h.members?_toJson hobj)
  | true =>
      cases n with
      | leaf label value => simp [isObject] at hobj
      | array label items => simp [isObject] at hobj
      | object label members => simp [toJson_object, Json.type]

theorem onlySources_metadata (label : Label) (metadata : Metadata) :
    Label.onlySources { label with metadata := metadata } = label.onlySources := rfl

theorem mapLabels_merge_of_not_object {a b : Node} (h : (a.isObject && b.isObject) = false) :
    (merge a b).mapLabels .onlySources = b.mapLabels .onlySources := by
  rw [merge_of_not_object h, mapLabels_withMetadata onlySources_metadata]

theorem mapLabels_merge_withMetadata (a b : Node) (metadata : Metadata) :
    (merge (a.withMetadata metadata) b).mapLabels .onlySources =
      (merge a b).mapLabels .onlySources := by
  cases hobj : a.isObject && b.isObject with
  | false =>
      have hobj' : ((a.withMetadata metadata).isObject && b.isObject) = false := by
        cases a <;> exact hobj
      rw [mapLabels_merge_of_not_object hobj, mapLabels_merge_of_not_object hobj']
  | true =>
      obtain ⟨label, members, label', others, rfl, rfl⟩ := exists_objects hobj
      simp [withMetadata, withLabel, merge_object, mapLabels_object, Label.onlySources]

theorem sources_merge_assoc_of_lower_not_object {a : Node} (h : a.isObject = false) (b c : Node) :
    (merge (merge a b) c).mapLabels .onlySources =
      (merge a (merge b c)).mapLabels .onlySources := by
  have hab : (a.isObject && b.isObject) = false := by simp [h]
  have hac : (a.isObject && (merge b c).isObject) = false := by simp [h]
  rw [merge_of_not_object hab, mapLabels_merge_withMetadata, mapLabels_merge_of_not_object hac]

theorem sources_merge_assoc_of_upper_not_object {c : Node} (h : c.isObject = false) (a b : Node) :
    (merge (merge a b) c).mapLabels .onlySources =
      (merge a (merge b c)).mapLabels .onlySources := by
  have habc : ((merge a b).isObject && c.isObject) = false := by simp [h]
  have hbc : (b.isObject && c.isObject) = false := by simp [h]
  have ha : (a.isObject && (merge b c).isObject) = false := by simp [isObject_merge, h]
  rw [mapLabels_merge_of_not_object habc, mapLabels_merge_of_not_object ha,
    mapLabels_merge_of_not_object hbc]

theorem sources_merge_object_assoc {la lb lc : Label} {as bs cs : List (String × Node)}
    (ha : Members.Distinct as) (hb : Members.Distinct bs) (hc : Members.Distinct cs)
    (h : ∀ key a b c, Members.get? key as = some a → Members.get? key bs = some b →
      Members.get? key cs = some c →
        (merge (merge a b) c).mapLabels .onlySources =
          (merge a (merge b c)).mapLabels .onlySources) :
    (merge (merge (object la as) (object lb bs)) (object lc cs)).mapLabels .onlySources =
      (merge (object la as) (merge (object lb bs) (object lc cs))).mapLabels .onlySources := by
  have hmembers := (Members.mapValues_unionWith_assoc_iff ha hb hc).2 h
  simp only [merge_object, mapLabels_object]
  rw [mergeMembers_eq_unionWith ha hb, mergeMembers_eq_unionWith hb hc,
    mergeMembers_eq_unionWith (ha.unionWith hb) hc,
    mergeMembers_eq_unionWith ha (hb.unionWith hc), hmembers]
  simp [Label.onlySources, List.append_assoc]

/-- Without a contested path, both groupings of three trees have the same sources at every
node. -/
theorem sources_merge_assoc {a b c : Node} (ha : a.WellFormed) (hb : b.WellFormed)
    (hc : c.WellFormed)
    (hfree : ∀ path x y z, ¬ Json.Contested a.toJson b.toJson c.toJson path x y z) :
    (merge (merge a b) c).mapLabels .onlySources =
      (merge a (merge b c)).mapLabels .onlySources := by
  induction a using Node.induct generalizing b c with
  | leaf label value => exact sources_merge_assoc_of_lower_not_object rfl b c
  | array label items => exact sources_merge_assoc_of_lower_not_object rfl b c
  | object la as ih =>
      cases hcobj : c.isObject with
      | false => exact sources_merge_assoc_of_upper_not_object hcobj _ b
      | true =>
          have hct := hc.type_toJson.2 hcobj
          cases hbobj : b.isObject with
          | false =>
              -- The root itself is contested.
              have hbt : b.toJson.type ≠ .object := by simp [hb.type_toJson, hbobj]
              have hat : (object la as).toJson.type = .object := ha.type_toJson.2 rfl
              exact absurd ⟨rfl, rfl, rfl, hat, hbt, hct⟩ (hfree [] _ _ _)
          | true =>
              have hobj : (b.isObject && c.isObject) = true := by rw [hbobj, hcobj]; rfl
              obtain ⟨lb, bs, lc, cs, rfl, rfl⟩ := exists_objects hobj
              obtain ⟨hda, hwa⟩ := wellFormed_object.1 ha
              obtain ⟨hdb, hwb⟩ := wellFormed_object.1 hb
              obtain ⟨hdc, hwc⟩ := wellFormed_object.1 hc
              rw [toJson_object, toJson_object, toJson_object] at hfree
              have hbelow := Json.forall_contested_object_iff.1 hfree
              apply sources_merge_object_assoc hda hdb hdc
              intro key a b c hka hkb hkc
              have hma := Members.mem_of_get?_eq_some hka
              have hmb := Members.mem_of_get?_eq_some hkb
              have hmc := Members.mem_of_get?_eq_some hkc
              refine ih (key, a) hma (hwa _ hma) (hwb _ hmb) (hwc _ hmc) ?_
              apply hbelow key
              · rw [Members.get?_mapValues, hka, Option.map_some]
              · rw [Members.get?_mapValues, hkb, Option.map_some]
              · rw [Members.get?_mapValues, hkc, Option.map_some]

/-- The limit of regrouping, for values and for trees: values regroup exactly when, at every
contested path, the lower object adds nothing to the upper one, and trees without a contested
path regroup in value, sources and, when their raw values are in step, raw values. -/
theorem regroup_iff_contested :
    (∀ a b c : Json, a.Distinct → b.Distinct → c.Distinct →
      ((a.overlay b).overlay c = a.overlay (b.overlay c) ↔
        ∀ path x y z, Json.Contested a b c path x y z → x.overlay z = z)) ∧
    (∀ a b c : Node, a.WellFormed → b.WellFormed → c.WellFormed →
      (∀ path x y z, ¬ Json.Contested a.toJson b.toJson c.toJson path x y z) →
      (merge (merge a b) c).toJson = (merge a (merge b c)).toJson ∧
      (merge (merge a b) c).mapLabels .onlySources =
        (merge a (merge b c)).mapLabels .onlySources ∧
      (a.InStep → b.InStep → c.InStep →
        (merge (merge a b) c).mapLabels .onlyRaw = (merge a (merge b c)).mapLabels .onlyRaw)) := by
  refine ⟨fun a b c ha hb hc => Json.overlay_overlay_eq_iff ⟨a, ha⟩ ⟨b, hb⟩ ⟨c, hc⟩,
    fun a b c ha hb hc hfree => ?_⟩
  have hvalues : (merge (merge a b) c).toJson = (merge a (merge b c)).toJson := by
    rw [toJson_merge (ha.merge hb) hc, toJson_merge ha hb, toJson_merge ha (hb.merge hc),
      toJson_merge hb hc]
    refine (Json.overlay_overlay_eq_iff ha.document hb.document hc.document).2 ?_
    exact fun path x y z hcon => absurd hcon (hfree path x y z)
  refine ⟨hvalues, sources_merge_assoc ha hb hc hfree, fun hsa hsb hsc => ?_⟩
  have hleft := InStep.merge (ha.merge hb) hc (InStep.merge ha hb hsa hsb) hsc
  have hright := InStep.merge ha (hb.merge hc) hsa (InStep.merge hb hc hsb hsc)
  rw [hleft.mapLabels_onlyRaw ((ha.merge hb).merge hc) (.literal 0 .null) .empty,
    hright.mapLabels_onlyRaw (ha.merge (hb.merge hc)) (.literal 0 .null) .empty, hvalues]

/-- A layer with a scalar under `x`. -/
def scalarLayer : Node :=
  literal (.literal 2 .null) .empty (.object [("x", .ofInt 5), ("s", .string "t")])

theorem scalarLayer_uncontested (path : List String) (x y z : Json) :
    ¬ Json.Contested scalarLayer.toJson lowerLayer.toJson upperLayer.toJson path x y z := by
  intro h
  simp only [scalarLayer, lowerLayer, upperLayer, toJson_literal] at h
  cases path with
  | nil => exact h.middle_type (by rw [← Option.some.inj h.middle]; rfl)
  | cons key rest =>
      obtain ⟨a, b, c, ha, hb, hc, h⟩ := Json.contested_object_cons.1 h
      have hmem := Members.mem_of_get?_eq_some ha
      have htype := h.lower_object
      rcases List.mem_cons.1 hmem with heq | hmem
      · simp [(Prod.mk.inj heq).2, Json.ofInt, Json.type] at htype
      · obtain heq := List.mem_singleton.1 hmem
        simp [(Prod.mk.inj heq).2, Json.type] at htype

/-- A path that is contested and harmless, and three trees without a contested path. -/
theorem regroup_iff_contested_layers :
    (Json.Contested (.object [("x", .object [("q", .ofInt 1)])]) (.object [("x", .ofInt 5)])
      (.object [("x", .object [("q", .ofInt 2)])]) ["x"] (.object [("q", .ofInt 1)]) (.ofInt 5)
      (.object [("q", .ofInt 2)]) ∧
      (Json.object [("q", .ofInt 1)]).overlay (.object [("q", .ofInt 2)]) =
        .object [("q", .ofInt 2)]) ∧
    scalarLayer.WellFormed ∧ lowerLayer.WellFormed ∧ upperLayer.WellFormed ∧
    scalarLayer.InStep ∧ lowerLayer.InStep ∧ upperLayer.InStep ∧
    (merge (merge scalarLayer lowerLayer) upperLayer).toJson =
      (merge scalarLayer (merge lowerLayer upperLayer)).toJson ∧
    (merge (merge scalarLayer lowerLayer) upperLayer).mapLabels .onlySources =
      (merge scalarLayer (merge lowerLayer upperLayer)).mapLabels .onlySources ∧
    (merge (merge scalarLayer lowerLayer) upperLayer).mapLabels .onlyRaw =
      (merge scalarLayer (merge lowerLayer upperLayer)).mapLabels .onlyRaw := by
  have hs : scalarLayer.WellFormed := by decide
  have hl : lowerLayer.WellFormed := by decide
  have hu : upperLayer.WellFormed := by decide
  have hss : scalarLayer.InStep := inStep_literal _ _ _
  have hsl : lowerLayer.InStep := inStep_literal _ _ _
  have hsu : upperLayer.InStep := inStep_literal _ _ _
  have hcon : Json.Contested (.object [("x", .object [("q", .ofInt 1)])])
      (.object [("x", .ofInt 5)]) (.object [("x", .object [("q", .ofInt 2)])]) ["x"]
      (.object [("q", .ofInt 1)]) (.ofInt 5) (.object [("q", .ofInt 2)]) :=
    ⟨by decide, by decide, by decide, by decide, by decide, by decide⟩
  obtain ⟨hvalues, htrees⟩ := regroup_iff_contested
  have hharmless := (hvalues (.object [("x", .object [("q", .ofInt 1)])])
    (.object [("x", .ofInt 5)]) (.object [("x", .object [("q", .ofInt 2)])])
    (by decide) (by decide) (by decide)).1 (by decide)
  obtain ⟨hjson, hsources, hraw⟩ := htrees _ _ _ hs hl hu scalarLayer_uncontested
  exact ⟨⟨hcon, hharmless _ _ _ _ hcon⟩, hs, hl, hu, hss, hsl, hsu, hjson, hsources,
    hraw hss hsl hsu⟩

end Node

end LayeredConfig
