import Mathlib.Data.List.Perm.Basic
import LayeredConfig.Proofs.Filter.Survivors
import LayeredConfig.Proofs.Node.Labels

/-!
# Filters that run one after the other

A test that sees nothing of a node but its metadata and its sources judges what a filter left of the
node as it judged the node. So two such filters do at once what they do one after the other, to
values, keys, metadata and sources. Raw values of objects lose the same keys either way, and raw
values of arrays the same elements, as long as an array has as many raw elements as children: the
first filter leaves a raw array of another length alone, and the second might find that the lengths
agree now (`Node.pruned_pruned`). A filter that ran before finds nothing to take away, whatever the
raw values are (`Node.pruned_idem`).
-/

namespace LayeredConfig

/-! ### Raw values that lose children twice -/

/-- What is rejected first and what is rejected then, together and each once. -/
theorem filter_append_filter_perm {α : Type} (p q : α → Bool) (xs : List α) :
    ((xs.filter fun x => !p x) ++ (xs.filter p).filter fun x => !q x).Perm
      (xs.filter fun x => !(p x && q x)) := by
  have h := List.filter_append_perm (fun x => !p x) (xs.filter fun x => !(p x && q x))
  have hfirst : (fun x => !p x && !(p x && q x)) = fun x => !p x := by
    funext x
    cases p x <;> rfl
  have hthen : (fun x => !(!p x) && !(p x && q x)) = fun x => !q x && p x := by
    funext x
    cases p x <;> cases q x <;> rfl
  rwa [List.filter_filter, List.filter_filter, hfirst, hthen, ← List.filter_filter] at h

theorem Members.erase_comm {α : Type} (key other : String) (ms : Members α) :
    erase key (erase other ms) = erase other (erase key ms) := by
  by_cases hsame : key = other
  · rw [hsame]
  · induction ms with
    | nil => rfl
    | cons entry rest ih =>
        obtain ⟨k, v⟩ := entry
        by_cases hkey : k = key
        · subst hkey
          simp [erase, hsame]
        · by_cases hother : k = other
          · subst hother
            simp [erase, hkey]
          · simp [erase, hkey, hother, ih]

namespace Json

theorem withoutKeys_withoutKeys (v : Json) (keys others : List String) :
    (v.withoutKeys keys).withoutKeys others = v.withoutKeys (keys ++ others) := by
  cases v with
  | object members => simp [withoutKeys]
  | _ => rfl

/-- In which order keys are taken away makes no difference. -/
theorem withoutKeys_perm {keys others : List String} (h : keys.Perm others) (v : Json) :
    v.withoutKeys keys = v.withoutKeys others := by
  cases v with
  | object members =>
      have : RightCommutative fun (ms : Members Json) key => Members.erase key ms :=
        ⟨fun ms key other => Members.erase_comm other key ms⟩
      exact congrArg object (h.foldl_eq members)
  | _ => rfl

/-- Keys that are rejected one after the other are rejected at once. -/
theorem withoutKeys_rejected {α : Type} (v : Json) (entries : List (String × α))
    (p q : String × α → Bool) :
    (v.withoutKeys ((entries.filter fun entry => !p entry).map Prod.fst)).withoutKeys
        (((entries.filter p).filter fun entry => !q entry).map Prod.fst) =
      v.withoutKeys ((entries.filter fun entry => !(p entry && q entry)).map Prod.fst) := by
  rw [withoutKeys_withoutKeys, ← List.map_append]
  exact withoutKeys_perm ((filter_append_filter_perm p q entries).map Prod.fst) v

/-- Masks that fit an array one after the other are one mask. -/
theorem maskItems_maskItems {α : Type} {v : Json} {xs : List α} (p q : α → Bool)
    (h : ∀ items, v = array items → items.length = xs.length) :
    (v.maskItems (xs.map p)).maskItems ((xs.filter p).map q) =
      v.maskItems (xs.map fun x => p x && q x) := by
  cases v with
  | array items =>
      have hlength := h items rfl
      -- Each raw element is looked at together with the child at its place.
      obtain ⟨pairs, rfl, rfl⟩ : ∃ pairs : List (Json × α),
          pairs.map Prod.fst = items ∧ pairs.map Prod.snd = xs :=
        ⟨items.zip xs, List.map_fst_zip (by omega), List.map_snd_zip (by omega)⟩
      rw [List.filter_map, List.map_map, List.map_map, List.map_map, maskItems_map, maskItems_map,
        maskItems_map, List.filter_filter]
      simp [Function.comp_def, Bool.and_comm]
  | _ => rfl

end Json

/-- A label without its raw value. -/
def Label.withoutRaw (label : Label) : Label := { label with raw := .null }

namespace Node

/-- The test sees nothing of a node but its own metadata and sources. -/
def SeesOnlyTags (keep : Node → Bool) : Prop :=
  ∀ n m : Node, n.metadata = m.metadata → n.sources = m.sources → keep n = keep m

/-- A raw array under an array node has as many elements as the node has children. -/
def RawFits (n : Node) : Prop :=
  ∀ items rawItems, n.items? = some items → n.raw = .array rawItems → rawItems.length = items.length

section

variable {keep also : Node → Bool}

/-- What a filter leaves of a node is judged as the node was. -/
theorem SeesOnlyTags.apply_pruned (h : SeesOnlyTags also) (n : Node) :
    also (n.pruned keep) = also n :=
  h _ _ (congrArg Content.metadata (content_pruned n)) (congrArg Content.sources (content_pruned n))

theorem SeesOnlyTags.apply_withoutRaw (h : SeesOnlyTags keep) (n : Node) :
    keep (n.mapLabels .withoutRaw) = keep n := by
  refine h _ _ ?_ ?_
  · rw [metadata, label_mapLabels]
    rfl
  · rw [sources, label_mapLabels]
    rfl

/-! ### One filter after the other -/

/-- Where raw arrays fit, two filters are one. -/
theorem pruned_pruned (halso : SeesOnlyTags also) {n : Node} (hfits : n.Everywhere RawFits) :
    (n.pruned keep).pruned also = n.pruned fun m => keep m && also m := by
  have hjudged : ∀ m : Node, also (m.pruned keep) = also m := halso.apply_pruned
  induction n using Node.induct with
  | leaf label value => rw [pruned_leaf, pruned_leaf, pruned_leaf]
  | array label items ih =>
      obtain ⟨hroot, hitems⟩ := everywhere_array.1 hfits
      have hcomp : also ∘ pruned keep = also := funext hjudged
      have hraw := Json.maskItems_maskItems keep also fun rawItems hraw =>
        hroot items rawItems rfl hraw
      have hchildren : (((items.filter keep).filter also).map (pruned also ∘ pruned keep)) =
          (items.filter fun m => keep m && also m).map (pruned fun m => keep m && also m) := by
        rw [List.filter_filter]
        simp only [Bool.and_comm (also _)]
        apply List.map_congr_left
        intro item hitem
        have hmem := (List.mem_filter.1 hitem).1
        exact ih item hmem (hitems item hmem)
      rw [pruned_array, pruned_array, pruned_array, List.filter_map, List.map_map, List.map_map,
        hcomp,
        hchildren]
      exact congrArg (fun raw => array { label with raw := raw } _) hraw
  | object label members ih =>
      obtain ⟨-, hmembers⟩ := everywhere_object.1 hfits
      have hraw := Json.withoutKeys_rejected label.raw members (fun entry => keep entry.2)
        fun entry => also entry.2
      have hkeys :
          ((Members.mapValues (pruned keep) (members.filter fun entry => keep entry.2)).filter
          fun entry => !also entry.2).map Prod.fst =
            ((members.filter fun entry => keep entry.2).filter fun entry => !also entry.2).map
              Prod.fst := by
        rw [Members.filter_mapValues (pruned keep) fun m => !also m]
        simp only [hjudged]
        exact Members.keys_mapValues (pruned keep) _
      have hchildren : Members.mapValues (pruned also)
          ((Members.mapValues (pruned keep) (members.filter fun entry => keep entry.2)).filter
            fun entry => also entry.2) =
          Members.mapValues (pruned fun m => keep m && also m)
            (members.filter fun entry => keep entry.2 && also entry.2) := by
        rw [Members.filter_mapValues, Members.mapValues_mapValues, List.filter_filter]
        simp only [hjudged, Bool.and_comm (also _)]
        apply Members.mapValues_congr
        intro entry hentry
        have hmem := (List.mem_filter.1 hentry).1
        exact ih entry hmem (hmembers entry hmem)
      rw [pruned_object, pruned_object, pruned_object, hkeys, hchildren]
      exact congrArg (fun raw => object { label with raw := raw } _) hraw

/-- Filtering by tags does not look at raw values. -/
theorem mapLabels_pruned (hkeep : SeesOnlyTags keep) (n : Node) :
    (n.pruned keep).mapLabels .withoutRaw = (n.mapLabels .withoutRaw).pruned keep := by
  have hjudged : ∀ m : Node, keep (m.mapLabels .withoutRaw) = keep m := hkeep.apply_withoutRaw
  induction n using Node.induct with
  | leaf label value => rw [pruned_leaf, mapLabels_leaf, pruned_leaf]
  | array label items ih =>
      rw [pruned_array, mapLabels_array, mapLabels_array, pruned_array, List.filter_map,
        show keep ∘ mapLabels .withoutRaw = keep from funext hjudged, List.map_map, List.map_map,
        List.map_map]
      have hchildren : (items.filter keep).map (mapLabels .withoutRaw ∘ pruned keep) =
          (items.filter keep).map (pruned keep ∘ mapLabels .withoutRaw) :=
        List.map_congr_left fun item hitem => ih item (List.mem_filter.1 hitem).1
      rw [hchildren]
      rfl
  | object label members ih =>
      rw [pruned_object, mapLabels_object, mapLabels_object, pruned_object,
        Members.filter_mapValues, Members.mapValues_mapValues, Members.mapValues_mapValues]
      simp only [hjudged]
      have hchildren : Members.mapValues (mapLabels .withoutRaw ∘ pruned keep)
          (members.filter fun entry => keep entry.2) =
            Members.mapValues (pruned keep ∘ mapLabels .withoutRaw)
              (members.filter fun entry => keep entry.2) :=
        Members.mapValues_congr fun entry hentry => ih entry (List.mem_filter.1 hentry).1
      rw [hchildren]
      rfl

/-- Every node that a filter leaves below the root is accepted. -/
theorem accepted_of_pruned (hkeep : SeesOnlyTags keep) (n : Node) :
    ∀ child ∈ (n.pruned keep).children, child.Everywhere fun m => keep m = true := by
  induction n using induct_children with
  | step n ih =>
      rw [children_pruned, List.forall_mem_map]
      intro child hchild
      obtain ⟨hmem, haccepted⟩ := List.mem_filter.1 hchild
      exact everywhere_iff.2 ⟨(hkeep.apply_pruned child).trans haccepted, ih child hmem⟩

theorem everywhere_rawFits_withoutRaw (n : Node) :
    (n.mapLabels .withoutRaw).Everywhere RawFits := by
  induction n using induct_children with
  | step n ih =>
      refine everywhere_iff.2 ⟨fun items rawItems _ hraw => ?_, ?_⟩
      · rw [raw, label_mapLabels] at hraw
        cases hraw
      · rw [children_mapLabels]
        exact List.forall_mem_map.2 ih

/-- Whatever the raw values are, two filters are one for all the rest. -/
theorem mapLabels_pruned_pruned (hkeep : SeesOnlyTags keep) (halso : SeesOnlyTags also) (n : Node) :
    ((n.pruned keep).pruned also).mapLabels .withoutRaw =
      (n.pruned fun m => keep m && also m).mapLabels .withoutRaw := by
  have hboth : SeesOnlyTags fun m => keep m && also m := fun a b hmetadata hsources =>
    congrArg₂ and (hkeep a b hmetadata hsources) (halso a b hmetadata hsources)
  rw [mapLabels_pruned halso, mapLabels_pruned hkeep, mapLabels_pruned hboth]
  exact pruned_pruned halso (everywhere_rawFits_withoutRaw n)

/-- Filtering again takes nothing away, raw values included. -/
theorem pruned_idem (hkeep : SeesOnlyTags keep) (n : Node) :
    (n.pruned keep).pruned keep = n.pruned keep :=
  pruned_eq_self (accepted_of_pruned hkeep n)

end

/-- Filters by metadata and sources that accept the root fuse. One after the other they give the
tree that one filter by both tests gives, but for raw values; where raw arrays fit, raw values are
the same as well. Filtering again by the same test gives the same tree, whatever its raw values
are. -/
theorem filterWhere_fuses {keep also : Node → Bool} (hkeep : SeesOnlyTags keep)
    (halso : SeesOnlyTags also) {n : Node} (hroot : keep n = true) (hroot' : also n = true) :
    ∃ first second both, n.filterWhere keep = .ok first ∧ first.filterWhere also = .ok second ∧
      n.filterWhere (fun m => keep m && also m) = .ok both ∧
      second.mapLabels .withoutRaw = both.mapLabels .withoutRaw ∧
      (n.Everywhere RawFits → second = both) ∧ first.filterWhere keep = .ok first := by
  have hfirst : keep (n.pruned keep) = true := (hkeep.apply_pruned n).trans hroot
  have hsecond : also (n.pruned keep) = true := (halso.apply_pruned n).trans hroot'
  refine ⟨n.pruned keep, (n.pruned keep).pruned also, n.pruned fun m => keep m && also m,
    if_pos hroot, if_pos hsecond, ?_, mapLabels_pruned_pruned hkeep halso n, pruned_pruned halso,
    ?_⟩
  · rw [filterWhere, hroot, hroot']
    rfl
  · rw [filterWhere, if_pos hfirst, pruned_idem hkeep]

/-- Whether none of the sources of a node has the identity. -/
def notFrom (id : Nat) (n : Node) : Bool := n.sources.all fun s => s.id != id

theorem seesOnlyTags_notFrom (id : Nat) : SeesOnlyTags (notFrom id) :=
  fun _ _ _ hsources => by rw [notFrom, hsources, notFrom]

/-- Three elements of different sources over a raw value. -/
def taggedItems (raw : Json) : Node :=
  .array ⟨[.literal 0 .null], raw, .empty⟩
    [.leaf (.of (.literal 1 .null) .null) (.ofInt 1),
      .leaf (.of (.literal 2 .null) .null) (.ofInt 2),
      .leaf (.of (.literal 3 .null) .null) (.ofInt 3)]

/-- Over a raw array of three elements the filters fuse. Over one of two elements they fuse but for
it: the second filter takes one of them away and the filter by both tests none. -/
theorem filterWhere_fuses_taggedItems :
    (∃ first second, (taggedItems (.array [.null, .null, .string "c"])).filterWhere (notFrom 1) =
        .ok first ∧ first.filterWhere (notFrom 2) = .ok second ∧
      (taggedItems (.array [.null, .null, .string "c"])).filterWhere
        (fun m => notFrom 1 m && notFrom 2 m) = .ok second ∧ second.raw = .array [.string "c"]) ∧
    ∃ first second both, (taggedItems (.array [.null, .string "c"])).filterWhere (notFrom 1) =
        .ok first ∧ first.filterWhere (notFrom 2) = .ok second ∧
      (taggedItems (.array [.null, .string "c"])).filterWhere
        (fun m => notFrom 1 m && notFrom 2 m) = .ok both ∧
      second.mapLabels .withoutRaw = both.mapLabels .withoutRaw ∧ second.raw ≠ both.raw := by
  have hfits : (taggedItems (.array [.null, .null, .string "c"])).Everywhere RawFits := by
    refine everywhere_array.2 ⟨fun items rawItems hitems hraw => ?_, fun item hitem => ?_⟩
    · cases hitems
      cases hraw
      rfl
    · simp only [List.mem_cons, List.not_mem_nil, or_false] at hitem
      rcases hitem with rfl | rfl | rfl <;> exact everywhere_leaf.2 nofun
  constructor
  · obtain ⟨first, second, both, hfirst, hsecond, hboth, -, hsame, -⟩ :=
      filterWhere_fuses (n := taggedItems (.array [.null, .null, .string "c"]))
        (seesOnlyTags_notFrom 1) (seesOnlyTags_notFrom 2) rfl rfl
    obtain rfl := hsame hfits
    refine ⟨first, second, hfirst, hsecond, hboth, ?_⟩
    cases hboth
    rfl
  · obtain ⟨first, second, both, hfirst, hsecond, hboth, hrest, -, -⟩ :=
      filterWhere_fuses (n := taggedItems (.array [.null, .string "c"]))
        (seesOnlyTags_notFrom 1) (seesOnlyTags_notFrom 2) rfl rfl
    refine ⟨first, second, both, hfirst, hsecond, hboth, hrest, ?_⟩
    cases hfirst
    cases hsecond
    cases hboth
    decide

end Node

end LayeredConfig
