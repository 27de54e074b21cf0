import LayeredConfig.Proofs.Merge.Values
import LayeredConfig.Proofs.Metadata.Combining
import Mathlib.Data.List.Nodup

/-!
# Merging objects whose keys are written in another order

On distinct keys, maps hold the same entries in some order exactly when they look up alike
(`Members.perm_iff_get?_eq`). A value or a tree is reordered when nothing but the order of its own
keys differs, for a tree also that of the keys of its raw value; what stands under the keys is the
same. Merging looks keys up, so reordered trees merge to reordered trees (`Node.Reordered.merge`).
-/

namespace LayeredConfig

/-! ### Members -/

namespace Members

variable {α : Type} {xs ys : Members α}

theorem Distinct.perm (hx : xs.Distinct) (h : xs.Perm ys) : ys.Distinct :=
  (h.map Prod.fst).nodup_iff.1 hx

theorem mem_iff_get?_eq_some (hx : xs.Distinct) {entry : String × α} :
    entry ∈ xs ↔ get? entry.1 xs = some entry.2 :=
  ⟨get?_of_mem hx, mem_of_get?_eq_some⟩

/-- Maps hold the same entries in some order when they look up alike. -/
theorem perm_iff_get?_eq (hx : xs.Distinct) (hy : ys.Distinct) :
    xs.Perm ys ↔ ∀ key, get? key xs = get? key ys := by
  rw [List.perm_ext_iff_of_nodup (List.Nodup.of_map _ hx) (List.Nodup.of_map _ hy)]
  simp only [mem_iff_get?_eq_some hx, mem_iff_get?_eq_some hy]
  exact ⟨fun h key => Option.ext fun v => h (key, v), fun h entry => by rw [h]⟩

theorem get?_eq_of_perm (hx : xs.Distinct) (h : xs.Perm ys) (key : String) :
    get? key xs = get? key ys :=
  (perm_iff_get?_eq hx (hx.perm h)).1 h key

end Members

/-! ### Values -/

namespace Json

variable {v v' w w' : Json}

/-- The second value is the first one with its own keys in some order. -/
inductive Reordered : Json → Json → Prop
  | same {v : Json} : v.members? = none → Reordered v v
  | object {members others : List (String × Json)} :
      Members.Distinct members → members.Perm others → Reordered (.object members) (.object others)

/-- The value writes none of its own keys twice. -/
def RootDistinct (v : Json) : Prop := Members.Distinct (v.members?.getD [])

instance (v : Json) : Decidable v.RootDistinct := inferInstanceAs (Decidable (Members.Distinct _))

theorem RootDistinct.reordered (h : v.RootDistinct) : v.Reordered v := by
  cases v with
  | object members => exact .object h (.refl members)
  | _ => exact .same rfl

theorem Reordered.overlay (hv : v.Reordered v') (hw : w.Reordered w') :
    (v.overlay w).Reordered (v'.overlay w') := by
  cases hw with
  | same hnone =>
      rw [overlay_of_layer_not_object hnone, overlay_of_layer_not_object hnone]
      exact .same hnone
  | object hd hperm =>
      cases hv with
      | same hnone =>
          rw [overlay_of_base_not_object hnone, overlay_of_base_not_object hnone]
          exact .object hd hperm
      | object hd' hperm' =>
          have hbase := distinct_overlayMembers hd'
          have hbase' := distinct_overlayMembers (hd'.perm hperm')
          rw [overlay_object, overlay_object]
          refine .object (hbase _) ((Members.perm_iff_get?_eq (hbase _) (hbase' _)).2 fun key => ?_)
          rw [get?_overlayMembers hd, get?_overlayMembers (hd.perm hperm),
            Members.get?_eq_of_perm hd hperm, Members.get?_eq_of_perm hd' hperm']

end Json

/-! ### Trees -/

namespace Node

variable {n n' lower lower' upper upper' : Node}

/-- The second tree is the first one with the keys of its root, and those of the raw value there, in
some order. -/
inductive Reordered : Node → Node → Prop
  | same {n : Node} : n.isObject = false → Reordered n n
  | object {sources : List Source} {raw raw' : Json} {metadata : Metadata}
      {members others : List (String × Node)} :
      raw.Reordered raw' → Members.Distinct members → members.Perm others →
        Reordered (.object ⟨sources, raw, metadata⟩ members)
          (.object ⟨sources, raw', metadata⟩ others)

/-- The root of the tree writes no key twice, and neither does its raw value. -/
structure RootDistinct (n : Node) : Prop where
  members : Members.Distinct (n.members?.getD [])
  raw : n.raw.RootDistinct

instance (n : Node) : Decidable n.RootDistinct :=
  decidable_of_iff (Members.Distinct (n.members?.getD []) ∧ n.raw.RootDistinct)
    ⟨fun h => ⟨h.1, h.2⟩, fun h => ⟨h.members, h.raw⟩⟩

theorem RootDistinct.reordered (h : n.RootDistinct) : n.Reordered n := by
  cases n with
  | object label members => exact .object h.raw.reordered h.members (.refl members)
  | _ => exact .same rfl

theorem RootDistinct.withMetadata (h : n.RootDistinct) (metadata : Metadata) :
    (n.withMetadata metadata).RootDistinct where
  members := by rw [members?_withMetadata]; exact h.members
  raw := by rw [raw_withMetadata]; exact h.raw

theorem Reordered.metadata_eq (h : n.Reordered n') : n'.metadata = n.metadata := by
  cases h <;> rfl

theorem Reordered.sources_eq (h : n.Reordered n') : n'.sources = n.sources := by
  cases h <;> rfl

theorem Reordered.withMetadata (h : n.Reordered n') (metadata : Metadata) :
    (n.withMetadata metadata).Reordered (n'.withMetadata metadata) := by
  cases h with
  | same hobj => exact .same ((isObject_withMetadata _ _).trans hobj)
  | object hraw hd hperm => exact .object hraw hd hperm

theorem Reordered.merge (hl : lower.Reordered lower') (hu : upper.Reordered upper') :
    (lower.merge upper).Reordered (lower'.merge upper') := by
  cases hobj : lower.isObject && upper.isObject with
  | false =>
      have hobj' : (lower'.isObject && upper'.isObject) = false := by
        cases hl <;> cases hu <;> exact hobj
      rw [merge_of_not_object hobj, merge_of_not_object hobj', hl.metadata_eq, hu.metadata_eq]
      exact hu.withMetadata _
  | true =>
      obtain ⟨label, members, label', others, rfl, rfl⟩ := exists_objects hobj
      cases hl with
      | object hraw hd hperm =>
          cases hu with
          | object hraw' hd' hperm' =>
              have hunion := hd.unionWith (f := Node.merge) hd'
              have hunion' := (hd.perm hperm).unionWith (f := Node.merge) (hd'.perm hperm')
              rw [merge_object, merge_object, mergeMembers_eq_unionWith hd hd',
                mergeMembers_eq_unionWith (hd.perm hperm) (hd'.perm hperm')]
              refine .object (hraw.overlay hraw') hunion
                ((Members.perm_iff_get?_eq hunion hunion').2 fun key => ?_)
              rw [Members.get?_unionWith, Members.get?_unionWith, Members.get?_eq_of_perm hd hperm,
                Members.get?_eq_of_perm hd' hperm']
          | same hleaf => cases hleaf
      | same hleaf => cases hleaf

end Node

end LayeredConfig
