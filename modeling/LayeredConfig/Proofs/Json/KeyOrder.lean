import LayeredConfig.Proofs.Json.Distinct
import LayeredConfig.Proofs.Merge.Reordered

/-!
# Values up to the order of their keys

Sorting the members of all objects is a normal form for values whose key order does not matter. On
distinct keys `v.sorted = w.sorted` says that two values differ in nothing but the order of keys, at
any depth: two objects sort to one value exactly when they look up, under every key, values that
sort to one (`sorted_object_eq_iff`).
-/

namespace LayeredConfig

namespace Json

variable {members others : List (String × Json)}

theorem pairwise_keys_sortMembers (members : List (String × Json)) :
    (Members.keys (sortMembers members)).Pairwise (· ≤ ·) := by
  have hsorted : (sortMembers members).Pairwise fun a b => decide (a.1 ≤ b.1) = true := by
    refine List.pairwise_mergeSort (fun a b c hab hbc => ?_) (fun a b => ?_) members
    · exact decide_eq_true (String.le_trans (of_decide_eq_true hab) (of_decide_eq_true hbc))
    · simpa using String.le_total a.1 b.1
  exact hsorted.map Prod.fst fun _ _ => of_decide_eq_true

theorem get?_sortMembers (hm : Members.Distinct members) (key : String) :
    Members.get? key (sortMembers members) = Members.get? key members :=
  Members.get?_eq_of_perm (distinct_sortMembers hm) (sortMembers_perm members) key

/-- Sorting leaves nothing of members but what they look up. -/
theorem sortMembers_eq_iff (hm : Members.Distinct members) (ho : Members.Distinct others) :
    sortMembers members = sortMembers others ↔
      ∀ key, Members.get? key members = Members.get? key others := by
  constructor
  · intro h key
    rw [← get?_sortMembers hm, h, get?_sortMembers ho]
  · intro h
    have hentries : members.Perm others := (Members.perm_iff_get?_eq hm ho).2 h
    have hperm : (sortMembers members).Perm (sortMembers others) :=
      (sortMembers_perm members).trans (hentries.trans (sortMembers_perm others).symm)
    have hkeys : Members.keys (sortMembers members) = Members.keys (sortMembers others) :=
      (hperm.map Prod.fst).eq_of_pairwise (fun _ _ _ _ => String.le_antisymm)
        (pairwise_keys_sortMembers members) (pairwise_keys_sortMembers others)
    refine Members.eq_of_keys_eq (distinct_sortMembers hm) hkeys fun key _ => ?_
    rw [get?_sortMembers hm, get?_sortMembers ho, h]

theorem sorted_object_eq_iff (hm : Members.Distinct members) (ho : Members.Distinct others) :
    (object members).sorted = (object others).sorted ↔
      ∀ key, (Members.get? key members).map sorted = (Members.get? key others).map sorted := by
  rw [sorted, sorted, object.injEq, sortedMembers_eq_mapValues, sortedMembers_eq_mapValues,
    sortMembers_eq_iff ((Members.distinct_mapValues sorted).2 hm)
      ((Members.distinct_mapValues sorted).2 ho)]
  simp only [Members.get?_mapValues]

end Json

end LayeredConfig
