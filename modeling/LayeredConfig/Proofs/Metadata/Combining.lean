import LayeredConfig.Node.Basic
import LayeredConfig.Proofs.Members.Listed

/-!
# Metadata laid over metadata

Metadata is put together in two ways. Where nodes merge, entries under one key combine as values;
where an evaluation changes its settings, each entry replaces what it is laid over. Either way the
keys are those of both sides (`holds_merged`, `holds_extended`), and metadata that holds every
key once goes on doing so. Taking the instructions off removes their four keys and touches no other.
-/

namespace LayeredConfig

namespace Json

/-- Looking a key up in overlaid members, only the upper of which need to be a map. -/
theorem get?_overlayMembers {members upper : List (String × Json)} (hu : Members.Distinct upper)
    (key : String) :
    Members.get? key (overlayMembers members upper) =
      (Members.get? key members).merge overlay (Members.get? key upper) := by
  induction upper generalizing members with
  | nil => simp
  | cons entry rest ih =>
      obtain ⟨k, v⟩ := entry
      obtain ⟨hk, hrest⟩ := List.nodup_cons.1 hu
      rw [overlayMembers, ih hrest, Members.get?_insert, Members.get?_cons]
      by_cases hkey : k = key
      · subst hkey
        have hnone : Members.get? k rest = none := Members.get?_eq_none_iff.2 hk
        cases hget : Members.get? k members <;> simp [hnone]
      · simp [hkey]

theorem mem_keys_overlayMembers {members upper : List (String × Json)} {key : String} :
    key ∈ Members.keys (overlayMembers members upper) ↔
      key ∈ Members.keys members ∨ key ∈ Members.keys upper := by
  induction upper generalizing members with
  | nil => simp
  | cons entry rest ih =>
      rw [overlayMembers, ih, Members.mem_keys_insert, Members.keys_cons, List.mem_cons, or_assoc,
        or_left_comm]

theorem distinct_overlayMembers {members : List (String × Json)} (hm : Members.Distinct members)
    (upper : List (String × Json)) : Members.Distinct (overlayMembers members upper) := by
  induction upper generalizing members with
  | nil => rwa [overlayMembers_nil]
  | cons entry rest ih =>
      rw [overlayMembers]
      exact ih hm.insert

end Json

namespace Metadata

variable {m lower upper : Metadata} {key : String}

/-! ### Keys -/

/-- Whether there is an entry for a key. -/
def Holds (m : Metadata) (key : String) : Prop := key ∈ m.entries.keys

instance (m : Metadata) (key : String) : Decidable (m.Holds key) :=
  inferInstanceAs (Decidable (key ∈ _))

theorem get?_eq_none_iff : m.get? key = none ↔ ¬ m.Holds key := Members.get?_eq_none_iff

theorem not_holds_empty (key : String) : ¬ empty.Holds key := List.not_mem_nil

theorem holds_merged : (lower.merged upper).Holds key ↔ lower.Holds key ∨ upper.Holds key :=
  Json.mem_keys_overlayMembers

theorem holds_extended : (lower.extended upper).Holds key ↔ lower.Holds key ∨ upper.Holds key :=
  Members.mem_keys_extend

/-! ### Look-ups -/

theorem get?_merged (hu : upper.entries.Distinct) (key : String) :
    (lower.merged upper).get? key = (lower.get? key).merge Json.overlay (upper.get? key) :=
  Json.get?_overlayMembers hu key

/-- A flag of combined metadata: an entry of the upper side decides, and the lower side where
there is none. -/
theorem flag_merged (hu : upper.entries.Distinct) (key : String) :
    (lower.merged upper).flag key = true ↔
      upper.flag key = true ∨ upper.get? key = none ∧ lower.flag key = true := by
  rw [flag_eq_true_iff, flag_eq_true_iff, flag_eq_true_iff, get?_merged hu]
  cases hupper : upper.get? key with
  | none => simp
  | some value =>
      cases hlower : lower.get? key with
      | none => simp
      | some held =>
          cases value with
          | object members => cases held <;> simp [Json.overlay]
          | _ => rw [Option.merge_some_some, Json.overlay_of_layer_not_object rfl]; simp

/-! ### Without instructions -/

theorem distinct_foldl_erase (removed : List String) (h : m.entries.Distinct) :
    (removed.foldl erase m).entries.Distinct := by
  induction removed generalizing m with
  | nil => exact h
  | cons first rest ih => exact ih (m := m.erase first) h.erase

theorem get?_foldl_erase_of_not_mem {removed : List String} (h : key ∉ removed) :
    (removed.foldl erase m).get? key = m.get? key := by
  induction removed generalizing m with
  | nil => rfl
  | cons first rest ih =>
      obtain ⟨hfirst, hrest⟩ := not_or.1 (mt List.mem_cons.2 h)
      rw [List.foldl_cons, ih hrest]
      exact Members.get?_erase_of_ne (Ne.symm hfirst) _

theorem get?_foldl_erase_of_mem {removed : List String} (hm : m.entries.Distinct)
    (h : key ∈ removed) : (removed.foldl erase m).get? key = none := by
  induction removed generalizing m with
  | nil => cases h
  | cons first rest ih =>
      rw [List.foldl_cons]
      by_cases hrest : key ∈ rest
      · exact ih (m := m.erase first) hm.erase hrest
      · -- The first of them is the key, and none of the others brings it back.
        obtain rfl := (List.mem_cons.1 h).resolve_right hrest
        rw [get?_foldl_erase_of_not_mem hrest]
        exact Members.get?_erase_self hm

theorem distinct_withoutInstructions (h : m.entries.Distinct) :
    m.withoutInstructions.entries.Distinct :=
  distinct_foldl_erase instructions h

theorem holds_withoutInstructions (h : key ∉ instructions) :
    m.withoutInstructions.Holds key ↔ m.Holds key := by
  rw [← Decidable.not_iff_not, ← get?_eq_none_iff, ← get?_eq_none_iff, withoutInstructions,
    get?_foldl_erase_of_not_mem h]

/-- Metadata that holds every key once holds no instruction after they have been taken off. -/
theorem get?_withoutInstructions (hm : m.entries.Distinct) (h : key ∈ instructions) :
    m.withoutInstructions.get? key = none :=
  get?_foldl_erase_of_mem hm h

end Metadata

end LayeredConfig
