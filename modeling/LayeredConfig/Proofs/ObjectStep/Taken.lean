import LayeredConfig.Proofs.Metadata.Combining
import LayeredConfig.Proofs.ObjectStep.Reference

/-!
# What an object takes over from its members

A member that stays keeps its metadata to itself. One that replaces its object, or is merged under
or over it, brings along what it holds besides instructions. So an entry that all members hold comes
to the object exactly when one of them does not stay (`holds_metadata_iff_of_members`), and where
all stay, the object is made of them as they are (`result_run_of_keeps`).
-/

namespace LayeredConfig

namespace Node

/-- Where an operation combines metadata, a fold of it holds the keys of all. -/
theorem holds_metadata_foldl (op : Node → Node → Node) (key : String)
    (hop : ∀ n item,
      (op n item).metadata.Holds key ↔ n.metadata.Holds key ∨ item.metadata.Holds key)
    (base : Node) (items : List Node) :
    (items.foldl op base).metadata.Holds key ↔
      base.metadata.Holds key ∨ ∃ item ∈ items, item.metadata.Holds key := by
  induction items generalizing base with
  | nil => simp
  | cons item rest ih =>
      rw [List.foldl_cons, ih, hop, or_assoc]
      simp only [List.mem_cons, exists_eq_or_imp]

theorem holds_metadata_merge {lower upper : Node} {key : String} :
    (lower.merge upper).metadata.Holds key ↔
      lower.metadata.Holds key ∨ upper.metadata.Holds key := by
  rw [metadata_merge, Metadata.holds_merged]

end Node

namespace ObjectStep

/-! ### Members that stay -/

/-- Whether metadata asks for nothing but to stay, under the same or another key. -/
def keeps (metadata : Metadata) : Bool :=
  match requestOf metadata with
  | .keep | .rename (.string _) => true
  | _ => false

/-- Where every member stays, the object step keeps them all. -/
theorem result_run_of_keeps (path : String) (label : Label) {members : List (String × Node)}
    (h : ∀ entry ∈ members, keeps entry.2.metadata = true) :
    (run path label members).result =
      .ok (.object label (Members.ofList (members.filterMap keptMember?))) := by
  have hpick : ∀ entry ∈ members, misnamed? entry = none ∧ replaces entry = false ∧
      combines .merge entry = false ∧ combines .override entry = false := by
    intro entry hentry
    have hkeeps := h entry hentry
    unfold keeps at hkeeps
    unfold misnamed? replaces combines
    cases hr : requestOf entry.2.metadata with
    | rename target => cases target <;> simp_all
    | _ => simp_all
  have hnamed : members.findSome? misnamed? = none :=
    List.findSome?_eq_none_iff.2 fun entry hentry => (hpick entry hentry).1
  have hnone : members.find? replaces = none := by
    rw [List.find?_eq_none]
    intro entry hentry
    simp [(hpick entry hentry).2.1]
  have hmerged : picked (combines .merge) members = [] := by
    rw [picked, List.map_eq_nil_iff, List.filter_eq_nil_iff]
    intro entry hentry
    simp [(hpick entry hentry).2.2.1]
  have hoverriding : picked (combines .override) members = [] := by
    rw [picked, List.map_eq_nil_iff, List.filter_eq_nil_iff]
    intro entry hentry
    simp [(hpick entry hentry).2.2.2]
  rw [result_run, hnamed, hnone]
  simp [assemble, filed, hmerged, hoverriding, Members.ofList]

/-! ### Members that do not stay -/

variable {path : String} {label : Label} {members : List (String × Node)} {node : Node}
  {key : String}

/-- A member that does not stay replaces its object or is combined with it. -/
theorem keeps_eq_false_iff {entry : String × Node} (h : misnamed? entry = none) :
    keeps entry.2.metadata = false ↔
      replaces entry = true ∨ combines .merge entry = true ∨ combines .override entry = true := by
  unfold misnamed? at h
  unfold keeps replaces combines
  cases hr : requestOf entry.2.metadata with
  | rename target => cases target <;> simp_all
  | _ => cases ho : entry.2.isObject <;> simp

theorem holds_metadata_assemble (label : Label) (members : List (String × Node)) (key : String) :
    (assemble label (filed {} members)).metadata.Holds key ↔
      (label.metadata.Holds key ∨
          ∃ item ∈ picked (combines .merge) members, item.metadata.Holds key) ∨
        ∃ item ∈ picked (combines .override) members, item.metadata.Holds key := by
  have hunder := Node.holds_metadata_foldl (fun lower item => item.merge lower) key
    (fun _ _ => Node.holds_metadata_merge.trans or_comm)
    (.object label (Members.ofList (members.filterMap keptMember?)))
    (picked (combines .merge) members)
  have hover := Node.holds_metadata_foldl Node.merge key (fun _ _ => Node.holds_metadata_merge)
    ((picked (combines .merge) members).foldl (fun lower item => item.merge lower)
      (.object label (Members.ofList (members.filterMap keptMember?))))
    (picked (combines .override) members)
  exact hover.trans (or_congr_left hunder)

/-- An object holds on to the metadata that its frame gives it. -/
theorem holds_metadata_of_label (hok : (run path label members).result = .ok node)
    (hlabel : label.metadata.Holds key) : node.metadata.Holds key := by
  rcases (eq_of_result_run hok).2 with ⟨entry, -, rfl⟩ | ⟨-, rfl⟩
  · rw [Node.metadata_addMetadata, Metadata.holds_extended]
    exact .inr hlabel
  · exact (holds_metadata_assemble ..).2 (.inl (.inl hlabel))

/-- What all members hold, and is no instruction, comes to their object when it takes one of them
in. -/
theorem holds_metadata_iff_of_members (hkey : key ∉ Metadata.instructions)
    (hmembers : ∀ entry ∈ members, entry.2.metadata.Holds key)
    (hok : (run path label members).result = .ok node) :
    node.metadata.Holds key ↔
      label.metadata.Holds key ∨ ∃ entry ∈ members, keeps entry.2.metadata = false := by
  have hplain : ∀ entry ∈ members, entry.2.withoutInstructions.metadata.Holds key := by
    intro entry hentry
    rw [Node.metadata_withoutInstructions, Metadata.holds_withoutInstructions hkey]
    exact hmembers entry hentry
  obtain ⟨hnamed, hcases⟩ := eq_of_result_run hok
  have hnamed : ∀ entry ∈ members, misnamed? entry = none := List.findSome?_eq_none_iff.1 hnamed
  rcases hcases with ⟨entry, hfirst, rfl⟩ | ⟨hnone, rfl⟩
  · have hentry := List.mem_of_find?_eq_some hfirst
    have hkeeps := (keeps_eq_false_iff (hnamed entry hentry)).2 (.inl (List.find?_some hfirst))
    refine iff_of_true ?_ (.inr ⟨entry, hentry, hkeeps⟩)
    rw [Node.metadata_addMetadata, Metadata.holds_extended]
    exact .inl (hplain entry hentry)
  · have hpicked : ∀ p, (∃ item ∈ picked p members, item.metadata.Holds key) ↔
        ∃ entry ∈ members, p entry = true := by
      intro p
      constructor
      · rintro ⟨item, hitem, -⟩
        obtain ⟨entry, hentry, -⟩ := List.mem_map.1 hitem
        exact ⟨entry, List.mem_filter.1 hentry⟩
      · rintro ⟨entry, hentry, hp⟩
        exact ⟨_, List.mem_map_of_mem (List.mem_filter.2 ⟨hentry, hp⟩), hplain entry hentry⟩
    rw [holds_metadata_assemble, hpicked, hpicked, or_assoc, ← exists_or]
    refine or_congr_right (exists_congr fun entry => ?_)
    rw [← and_or_left]
    refine and_congr_right fun hentry => ?_
    have hreplaces : replaces entry ≠ true := by simpa using List.find?_eq_none.1 hnone entry hentry
    rw [keeps_eq_false_iff (hnamed entry hentry), or_iff_right hreplaces]

end ObjectStep

end LayeredConfig
