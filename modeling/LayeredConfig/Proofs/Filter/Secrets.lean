import LayeredConfig.Proofs.Evaluation.Marked
import LayeredConfig.Proofs.Filter.Screening
import LayeredConfig.Proofs.Merge.Regrouping
import Mathlib.Data.List.Forall2

/-!
# Filtering secrets layers out of a stack

A stack of layers is evaluated, layers of secrets with all their values marked, then folded, and
filtered by the mark. The tree of one layer has the invariant `Screening`, the keys being those of
a layer of secrets, and the fold of a stack has it with all of these keys. The main statement,
`published_eq`, is that what is left is the fold of the plain layers without the keys of the
layers of secrets, so that it does not depend on what those layers hold.
-/

namespace LayeredConfig

/-! ### Layers -/

/-- A layer before it is evaluated: the members of an object, where they come from, and whether
they are secrets. -/
structure Layer where
  source : Source
  secret : Bool
  members : List (String × Json)
  distinct : (Json.object members).Distinct

namespace Layer

def value (layer : Layer) : Json := .object layer.members

/-- The keys that a layer keeps secret. -/
def secretKeys (layer : Layer) : List String :=
  if layer.secret then Members.keys layer.members else []

/-- What evaluation lays over the node at a position. -/
def mark (layer : Layer) (position : Position) : Metadata :=
  if position = .root then .empty else .secrecy layer.secret

def tree (layer : Layer) : Node :=
  Node.marked layer.mark layer.source .empty layer.value

section

variable {ι : Type} [DecidableEq ι]

/-- The settings that a layer is evaluated with: `e` marks the values of a layer of secrets. -/
def evaluator (e : ι) (layer : Layer) : Evaluator ι where
  extensions := if layer.secret then [e] else []

def evaluate (setting : Setting ι) (e : ι) (layer : Layer) : Run Node :=
  (layer.evaluator e).evaluate setting layer.value layer.source

theorem onlyMarks_evaluator {catalogue : Catalogue ι} {e : ι}
    (he : catalogue e = .markSecrets) (layer : Layer) :
    OnlyMarks catalogue (layer.evaluator e).extensions layer.mark := by
  unfold evaluator mark
  cases layer.secret with
  | false =>
      have hempty : (fun position : Position =>
          if position = .root then Metadata.empty else .secrecy false) = fun _ => .empty := by
        funext position
        exact ite_self Metadata.empty
      rw [hempty]
      exact onlyMarks_nil catalogue
  | true => exact onlyMarks_markAll he rfl

theorem result_evaluate {setting : Setting ι} {e : ι} {layer : Layer}
    (he : setting.catalogue e = .markSecrets)
    (hlimit : 2 * (layer.value.depth + 1) ≤ setting.limit) :
    (layer.evaluate setting e).result = .ok layer.tree :=
  result_evaluate_eq_marked (onlyMarks_evaluator he layer) layer.value layer.source hlimit

end

/-- The tree of a layer is a literal tree under an empty root. -/
theorem tree_eq_literal (layer : Layer) :
    layer.tree = (Node.literal layer.source (.secrecy layer.secret) layer.value).withMetadata
      .empty := by
  have hmark : ∀ position, position ≠ .root → layer.mark position = .secrecy layer.secret :=
    fun position h => if_neg h
  have hextended : Metadata.empty.extended (.secrecy layer.secret) = .secrecy layer.secret := by
    cases layer.secret <;> rfl
  have hkeep : ObjectStep.requestOf
      (Metadata.empty.extended (.secrecy layer.secret)) = .keep := by
    cases layer.secret <;> rfl
  have hdistinct : layer.value.Distinct := layer.distinct
  rw [tree, Node.marked_eq_literal hmark hkeep hdistinct, hextended]

theorem toJson_tree (layer : Layer) : layer.tree.toJson = layer.value := by
  rw [tree_eq_literal, Node.toJson_withMetadata, Node.toJson_literal]

theorem screening_tree (layer : Layer) : Screening layer.secretKeys layer.tree where
  metadata := Node.metadata_marked _
  wellFormed := by
    rw [tree_eq_literal, Node.wellFormed_withMetadata]
    exact Node.wellFormed_literal _ _ layer.distinct
  inStep := by
    rw [tree_eq_literal, Node.inStep_withMetadata]
    exact Node.inStep_literal _ _ _
  members := by
    rw [tree_eq_literal, value, Node.literal_object]
    refine ⟨_, rfl, fun key => ?_⟩
    rw [Members.get?_mapValues, secretKeys]
    cases hget : Members.get? key layer.members with
    | none =>
        have hkey := Members.get?_eq_none_iff.1 hget
        cases layer.secret <;> simp [Screened, hkey]
    | some v =>
        have hkey : key ∈ Members.keys layer.members :=
          List.mem_map_of_mem (Members.mem_of_get?_eq_some hget)
        have hsecret : decide (key ∈ if layer.secret then Members.keys layer.members else []) =
            layer.secret := by
          cases layer.secret <;> simp [hkey]
        rw [hsecret]
        have hmark := Node.everywhere_metadata_literal layer.source (.secrecy layer.secret) v
        refine ⟨hmark.root, fun hplain => ?_⟩
        rwa [hplain] at hmark ⊢

end Layer

/-! ### Stacks of layers -/

/-- The keys that some layer of a stack keeps secret. -/
def secretKeys (layers : List Layer) : List String := layers.flatMap Layer.secretKeys

/-- The values of the plain layers of a stack. -/
def plainValues (layers : List Layer) : List Json :=
  (layers.filter fun layer => !layer.secret).map Layer.value

/-- What is left of a stack of layers: they are evaluated, folded, and filtered by the mark. -/
def published {ι : Type} [DecidableEq ι] (setting : Setting ι) (e : ι) (layers : List Layer) :
    Option Node := do
  let trees ← layers.mapM fun layer => (layer.evaluate setting e).result.toOption
  let folded ← Node.mergeAll trees
  (folded.filterWhere Node.notFromSecrets).toOption

/-- The fold of a stack keeps the invariant, with the keys of all its layers of secrets. -/
theorem Screening.foldl_merge {secrets : List String} {base : Node} (hb : Screening secrets base)
    (layers : List Layer) :
    Screening (secrets ++ secretKeys layers) ((layers.map Layer.tree).foldl Node.merge base) := by
  induction layers generalizing secrets base with
  | nil => simpa [secretKeys] using hb
  | cons layer rest ih =>
      have hstep := ih (hb.merge layer.screening_tree)
      rwa [List.append_assoc] at hstep

/-- Where the keys of the layers of secrets are left out, the values of those layers leave no
trace in the fold. -/
theorem restrict_overlayAll {p : String → Bool} {layers : List Layer}
    (hp : ∀ key ∈ secretKeys layers, p key = false) {lower lower' : List (String × Json)}
    (hd : (Json.object lower).Distinct) (hd' : (Json.object lower').Distinct)
    (hsame : (Json.object lower).restrict p = (Json.object lower').restrict p) :
    (Json.overlayAll (.object lower) (layers.map Layer.value)).restrict p =
      (Json.overlayAll (.object lower') (plainValues layers)).restrict p := by
  induction layers generalizing lower lower' with
  | nil => exact hsame
  | cons layer rest ih =>
      obtain ⟨hlayer, hrest⟩ := List.forall_mem_append.1 hp
      have hover := hd.overlay layer.distinct
      rw [Json.overlay_object] at hover
      rw [List.map_cons, Json.overlayAll, List.foldl_cons, Layer.value, Json.overlay_object]
      cases hsecret : layer.secret with
      | true =>
          have hplain : plainValues (layer :: rest) = plainValues rest := by
            simp [plainValues, hsecret]
          rw [Layer.secretKeys, hsecret, if_pos rfl] at hlayer
          rw [hplain]
          refine ih hrest hover hd' ?_
          rw [← Json.overlay_object, Json.restrict_overlay_of_forall hd layer.distinct hlayer,
            hsame]
      | false =>
          have hplain : plainValues (layer :: rest) = layer.value :: plainValues rest := by
            simp [plainValues, hsecret]
          have hover' := hd'.overlay layer.distinct
          rw [Json.overlay_object] at hover'
          rw [hplain, Json.overlayAll, List.foldl_cons, Layer.value, Json.overlay_object]
          refine ih hrest hover hover' ?_
          rw [← Json.overlay_object, ← Json.overlay_object, Json.restrict_overlay hd layer.distinct,
            Json.restrict_overlay hd' layer.distinct, hsame]

theorem toJson_foldl_tree (first : Layer) (rest : List Layer) :
    ((rest.map Layer.tree).foldl Node.merge first.tree).toJson =
      Json.overlayAll (.object []) ((first :: rest).map Layer.value) := by
  have hfirst : (Json.object []).overlay first.value = first.value := by
    rw [Layer.value, Json.overlay_eq_unionWith Json.distinct_object_nil first.distinct,
      Members.unionWith_nil_left]
  have htrees : ∀ tree ∈ rest.map Layer.tree, tree.WellFormed := by
    rw [List.forall_mem_map]
    exact fun layer _ => layer.screening_tree.wellFormed
  have hvalues : (rest.map Layer.tree).map Node.toJson = rest.map Layer.value := by
    rw [List.map_map]
    exact List.map_congr_left fun layer _ => layer.toJson_tree
  rw [Node.toJson_foldl_merge first.screening_tree.wellFormed htrees, hvalues, first.toJson_tree,
    List.map_cons, Json.overlayAll, Json.overlayAll, List.foldl_cons, hfirst]

/-! ### What is left of a stack -/

section

variable {ι : Type} [DecidableEq ι] {setting : Setting ι} {e : ι}

theorem mapM_evaluate (he : setting.catalogue e = .markSecrets) {layers : List Layer}
    (hlimit : ∀ layer ∈ layers, 2 * (layer.value.depth + 1) ≤ setting.limit) :
    layers.mapM (fun layer => (layer.evaluate setting e).result.toOption) =
      some (layers.map Layer.tree) := by
  induction layers with
  | nil => rfl
  | cons layer rest ih =>
      obtain ⟨hlayer, hrest⟩ := List.forall_mem_cons.1 hlimit
      rw [List.mapM_cons, Layer.result_evaluate he hlayer, ih hrest]
      rfl

/-- Whatever is left of a stack is a tree in step, of the fold of its plain layers without the
keys of its layers of secrets. -/
theorem exists_published (he : setting.catalogue e = .markSecrets) {layers : List Layer}
    (hne : layers ≠ []) (hlimit : ∀ layer ∈ layers, 2 * (layer.value.depth + 1) ≤ setting.limit) :
    ∃ filtered, published setting e layers = some filtered ∧ filtered.WellFormed ∧
      filtered.InStep ∧
      filtered.toJson = (Json.overlayAll (.object []) (plainValues layers)).restrict
        fun key => key ∉ secretKeys layers := by
  obtain ⟨first, rest, rfl⟩ := List.exists_cons_of_ne_nil hne
  have hfold : Screening (secretKeys (first :: rest)) _ := first.screening_tree.foldl_merge rest
  obtain ⟨filtered, hfilter, hwell, hstep, hvalue⟩ := hfold.filterWhere
  refine ⟨filtered, ?_, hwell, hstep, ?_⟩
  · rw [published, mapM_evaluate he hlimit]
    change ((List.foldl Node.merge first.tree (rest.map Layer.tree)).filterWhere _).toOption = _
    rw [hfilter]
    rfl
  · rw [hvalue, toJson_foldl_tree]
    exact restrict_overlayAll (fun key hkey => by simpa using hkey) Json.distinct_object_nil
      Json.distinct_object_nil rfl

/-- Both are plain layers of one value, or layers of secrets under the same keys. -/
def Layer.AgreesButForSecrets (layer other : Layer) : Prop :=
  layer.secret = other.secret ∧
    if layer.secret then ∀ key, key ∈ Members.keys layer.members ↔ key ∈ Members.keys other.members
    else layer.value = other.value

theorem plainValues_eq_of_agree {layers others : List Layer}
    (h : List.Forall₂ Layer.AgreesButForSecrets layers others) :
    plainValues layers = plainValues others := by
  induction h with
  | nil => rfl
  | @cons layer other rest rest' hagree _ ih =>
      obtain ⟨hsecret, hvalue⟩ := hagree
      cases hs : layer.secret with
      | true => simpa [plainValues, hs, ← hsecret] using ih
      | false =>
          rw [hs, if_neg Bool.false_ne_true] at hvalue
          simpa [plainValues, hs, ← hsecret, hvalue] using ih

theorem mem_secretKeys_of_agree {layers others : List Layer}
    (h : List.Forall₂ Layer.AgreesButForSecrets layers others) (key : String) :
    key ∈ secretKeys layers ↔ key ∈ secretKeys others := by
  induction h with
  | nil => rfl
  | @cons layer other rest rest' hagree _ ih =>
      obtain ⟨hsecret, hkeys⟩ := hagree
      have hlayer : key ∈ layer.secretKeys ↔ key ∈ other.secretKeys := by
        rw [Layer.secretKeys, Layer.secretKeys, ← hsecret]
        cases hs : layer.secret with
        | true =>
            rw [hs, if_pos rfl] at hkeys
            exact hkeys key
        | false => rfl
      have hcons : ∀ (first : Layer) (behind : List Layer), key ∈ secretKeys (first :: behind) ↔
          key ∈ first.secretKeys ∨ key ∈ secretKeys behind := fun _ _ => List.mem_append
      rw [hcons, hcons, hlayer, ih]

/-- Filtering by the mark takes the layers of secrets back out of a stack. It always succeeds, and
leaves the fold of the plain layers without the top-level keys that some layer of secrets holds;
the raw value of every node that is left is its value. Stacks that differ only in what their
layers of secrets hold under the same keys leave the same values and raw values at every node. -/
theorem published_eq (he : setting.catalogue e = .markSecrets) {layers : List Layer}
    (hne : layers ≠ []) (hlimit : ∀ layer ∈ layers, 2 * (layer.value.depth + 1) ≤ setting.limit) :
    ∃ filtered, published setting e layers = some filtered ∧
      filtered.toJson = (Json.overlayAll (.object []) (plainValues layers)).restrict
        (fun key => key ∉ secretKeys layers) ∧
      filtered.InStep ∧
      ∀ others, List.Forall₂ Layer.AgreesButForSecrets layers others →
        (∀ layer ∈ others, 2 * (layer.value.depth + 1) ≤ setting.limit) →
          ∃ filtered', published setting e others = some filtered' ∧
            filtered'.toJson = filtered.toJson ∧
            filtered'.mapLabels .onlyRaw = filtered.mapLabels .onlyRaw := by
  obtain ⟨filtered, hfiltered, hwell, hstep, hvalue⟩ := exists_published he hne hlimit
  refine ⟨filtered, hfiltered, hvalue, hstep, fun others hagree hlimit' => ?_⟩
  have hne' : others ≠ [] := by
    rintro rfl
    cases hagree
    exact hne rfl
  obtain ⟨filtered', hfiltered', hwell', hstep', hvalue'⟩ := exists_published he hne' hlimit'
  have hkeys : (fun key => decide (key ∉ secretKeys others)) =
      fun key => decide (key ∉ secretKeys layers) := by
    funext key
    simp only [mem_secretKeys_of_agree hagree]
  have hsame : filtered'.toJson = filtered.toJson := by
    rw [hvalue', hvalue, hkeys, plainValues_eq_of_agree hagree]
  refine ⟨filtered', hfiltered', hsame, ?_⟩
  rw [hstep'.mapLabels_onlyRaw hwell' (.literal 0 .null) .empty,
    hstep.mapLabels_onlyRaw hwell (.literal 0 .null) .empty, hsame]

end

/-- A setting in which the only extension marks secrets. -/
def secretSetting : Setting Unit := ⟨⟨[], []⟩, fun _ => .markSecrets, 12⟩

/-- A plain layer to go under the secrets. -/
def lowerSettings : Layer where
  source := .literal 0 .null
  secret := false
  members := [("db", .object [("host", .string "h")]), ("port", .ofInt 1)]
  distinct := by decide

/-- A plain layer to go over the secrets. -/
def upperSettings : Layer where
  source := .literal 2 .null
  secret := false
  members := [("token", .bool true), ("log", .array [.object [("level", .null)]]),
    ("port", .ofInt 2)]
  distinct := by decide

/-- Secrets under a key of each of the plain layers. -/
def someSecrets : Layer where
  source := .literal 1 .null
  secret := true
  members := [("token", .string "t"), ("db", .object [("password", .string "p")])]
  distinct := by decide

/-- Other secrets under the same keys. -/
def otherSecrets : Layer where
  source := .literal 1 .null
  secret := true
  members := [("token", .array [.ofInt 3]), ("db", .null)]
  distinct := by decide

theorem published_someSecrets :
    ∃ filtered, published secretSetting () [lowerSettings, someSecrets, upperSettings] =
        some filtered ∧
      filtered.toJson = .object [("port", .ofInt 2),
        ("log", .array [.object [("level", .null)]])] ∧
      filtered.InStep ∧
      ∃ filtered', published secretSetting () [lowerSettings, otherSecrets, upperSettings] =
          some filtered' ∧
        filtered'.toJson = filtered.toJson ∧
        filtered'.mapLabels .onlyRaw = filtered.mapLabels .onlyRaw := by
  have hmarks : secretSetting.catalogue () = .markSecrets := rfl
  have hagree : List.Forall₂ Layer.AgreesButForSecrets
      [lowerSettings, someSecrets, upperSettings] [lowerSettings, otherSecrets, upperSettings] :=
    .cons ⟨rfl, rfl⟩ (.cons ⟨rfl, fun _ => Iff.rfl⟩ (.cons ⟨rfl, rfl⟩ .nil))
  have hlimit : ∀ layer ∈ [lowerSettings, someSecrets, upperSettings],
      2 * (layer.value.depth + 1) ≤ secretSetting.limit := by decide
  obtain ⟨filtered, hfiltered, hvalue, hstep, hothers⟩ := published_eq hmarks (by simp) hlimit
  exact ⟨filtered, hfiltered, hvalue, hstep, hothers _ hagree (by decide)⟩

end LayeredConfig
