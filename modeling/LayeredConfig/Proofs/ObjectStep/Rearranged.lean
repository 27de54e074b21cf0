import LayeredConfig.Proofs.Members.Listed
import LayeredConfig.Proofs.Merge.Reordered
import LayeredConfig.Proofs.ObjectStep.Reference

/-!
# Where the members of an object are written

The object step takes its members in the order in which they are written, but it files them into
groups and puts the groups together in an order of its own. So members may trade places with those
of other groups: only within a group, and among members that end up under one key, does the order
count (`Rearranged`). The outcome then differs in nothing but the order of keys
(`result_run_of_rearranged`). The kept members are a map that looks every key up in the entries for
that key (`perm_kept`), and the groups to be merged are the same lists.
-/

namespace LayeredConfig

namespace ObjectStep

variable {members others : List (String × Node)}

/-- The key that a member ends up under, if it is kept. -/
def finalKey? (entry : String × Node) : Option String :=
  match requestOf entry.2.metadata with
  | .keep => some entry.1
  | .rename (.string key) => some key
  | _ => none

/-- The same members in another order, which keeps that of the members to be merged, of those to be
laid over the object, of those that may replace it, and of those to be kept under any one key. -/
structure Rearranged (members others : List (String × Node)) : Prop where
  perm : members.Perm others
  merged : members.filter (combines .merge) = others.filter (combines .merge)
  overriding : members.filter (combines .override) = others.filter (combines .override)
  replacing : members.filter replaces = others.filter replaces
  kept : ∀ key, (members.filter fun entry => finalKey? entry = some key) =
    others.filter fun entry => finalKey? entry = some key

/-- The members are in one group, or they are both kept under one key. -/
def Together (x y : String × Node) : Prop :=
  (combines .merge x ∧ combines .merge y) ∨ (combines .override x ∧ combines .override y) ∨
    (replaces x ∧ replaces y) ∨ ((finalKey? x).isSome ∧ finalKey? x = finalKey? y)

instance (x y : String × Node) : Decidable (Together x y) :=
  inferInstanceAs (Decidable (_ ∨ _ ∨ _ ∨ _))

theorem filter_swap {α : Type} {p : α → Bool} {x y : α} (h : ¬ (p x ∧ p y))
    (before after : List α) :
    (before ++ x :: y :: after).filter p = (before ++ y :: x :: after).filter p := by
  cases hx : p x <;> cases hy : p y <;> simp_all [List.filter_append]

/-- Neighbours that are in different groups may trade places. -/
theorem rearranged_swap {x y : String × Node} (h : ¬ Together x y)
    (before after : List (String × Node)) :
    Rearranged (before ++ x :: y :: after) (before ++ y :: x :: after) := by
  simp only [Together, not_or] at h
  obtain ⟨hmerged, hoverriding, hreplacing, hkept⟩ := h
  refine ⟨.append_left _ (.swap y x after), filter_swap hmerged _ _, filter_swap hoverriding _ _,
    filter_swap hreplacing _ _, fun key => filter_swap (fun hkeys => hkept ?_) _ _⟩
  obtain ⟨hx, hy⟩ := hkeys
  rw [of_decide_eq_true hx, of_decide_eq_true hy]
  exact ⟨rfl, rfl⟩

theorem Rearranged.trans {third : List (String × Node)} (h : Rearranged members others)
    (h' : Rearranged others third) : Rearranged members third where
  perm := h.perm.trans h'.perm
  merged := h.merged.trans h'.merged
  overriding := h.overriding.trans h'.overriding
  replacing := h.replacing.trans h'.replacing
  kept key := (h.kept key).trans (h'.kept key)

/-! ### Kept members -/

theorem map_fst_keptMember? (entry : String × Node) :
    (keptMember? entry).map Prod.fst = finalKey? entry := by
  unfold keptMember? finalKey?
  cases requestOf entry.2.metadata with
  | rename target => cases target <;> rfl
  | _ => rfl

/-- The entries that are filed under a key come from the members that end up there. -/
theorem filter_filterMap_keptMember? (key : String) (members : List (String × Node)) :
    ((members.filterMap keptMember?).filter fun entry => entry.1 = key) =
      (members.filter fun entry => finalKey? entry = some key).filterMap keptMember? := by
  rw [List.filter_filterMap, List.filterMap_filter]
  refine List.filterMap_congr fun entry _ => ?_
  rw [← map_fst_keptMember?]
  cases keptMember? entry with
  | none => rfl
  | some kept => by_cases h : kept.1 = key <;> simp [h]

/-- What is found under a key among the kept members is told by those that end up there. -/
theorem get?_kept (key : String) (members : List (String × Node)) :
    Members.get? key (Members.ofList (members.filterMap keptMember?)) =
      Members.get? key ((members.filter fun entry =>
        finalKey? entry = some key).filterMap keptMember?).reverse := by
  have hkey : decide (key = key) = true := decide_eq_true rfl
  rw [Members.get?_ofList, ← filter_filterMap_keptMember?, ← List.filter_reverse]
  exact (Members.get?_filter (p := fun k => k = key) hkey _).symm

theorem Rearranged.perm_kept (h : Rearranged members others) :
    (Members.ofList (members.filterMap keptMember?)).Perm
      (Members.ofList (others.filterMap keptMember?)) := by
  refine (Members.perm_iff_get?_eq (Members.distinct_ofList _) (Members.distinct_ofList _)).2
    fun key => ?_
  rw [get?_kept, get?_kept, h.kept]

/-! ### Outcomes -/

/-- Groups that differ in the order of the kept members alone are put together alike. -/
theorem reordered_assemble {sources : List Source} {metadata : Metadata} {raw raw' : Json}
    {groups groups' : Groups} (hraw : raw.Reordered raw') (hkept : Members.Distinct groups.kept)
    (hperm : groups.kept.Perm groups'.kept) (hmerged : groups.merged = groups'.merged)
    (hoverriding : groups.overriding = groups'.overriding)
    (hitems : ∀ item ∈ groups.merged ++ groups.overriding, item.RootDistinct) :
    (assemble ⟨sources, raw, metadata⟩ groups).Reordered
      (assemble ⟨sources, raw', metadata⟩ groups') := by
  obtain ⟨hunder, hover⟩ := List.forall_mem_append.1 hitems
  unfold assemble
  rw [← hmerged, ← hoverriding]
  refine List.foldl_rel (List.foldl_rel (.object hraw hkept hperm) ?_) ?_
  · intro item hitem lower lower' hlower
    exact (hunder item hitem).reordered.merge hlower
  · intro item hitem lower lower' hlower
    exact hlower.merge (hover item hitem).reordered

/-- Where the members of an object are written does not matter across groups. When every member
that is renamed has a key for its name, the object step has an outcome for the members in either
order, and the two differ in nothing but the order of keys, those of the object and those of its raw
value. -/
theorem result_run_of_rearranged {ι : Type} (frame : Frame ι) {raw raw' : List (String × Json)}
    (h : Rearranged members others) (hraw : Members.Distinct raw) (hperm : raw.Perm raw')
    (hnamed : ∀ entry ∈ members, misnamed? entry = none)
    (hmembers : ∀ entry ∈ members, entry.2.RootDistinct) :
    ∃ node node',
      (run frame.path ⟨[frame.source], .object raw, frame.metadata⟩ members).result = .ok node ∧
      (run frame.path ⟨[frame.source], .object raw', frame.metadata⟩ others).result = .ok node' ∧
      node.Reordered node' ∧ node'.metadata = node.metadata ∧ node'.sources = node.sources := by
  have hnamed' : ∀ entry ∈ others, misnamed? entry = none :=
    fun entry hentry => hnamed entry (h.perm.mem_iff.2 hentry)
  have hreplaces : members.find? replaces = others.find? replaces := by
    rw [← List.head?_filter, ← List.head?_filter, h.replacing]
  rw [result_run, result_run, List.findSome?_eq_none_iff.2 hnamed,
    List.findSome?_eq_none_iff.2 hnamed', ← hreplaces]
  have hplain : ∀ entry ∈ members, entry.2.withoutInstructions.RootDistinct :=
    fun entry hentry => (hmembers entry hentry).withMetadata _
  cases hfirst : members.find? replaces with
  | some first =>
      have hroot := hplain first (List.mem_of_find?_eq_some hfirst)
      exact ⟨_, _, rfl, rfl, (hroot.withMetadata _).reordered, rfl, rfl⟩
  | none =>
      have hitems : ∀ item ∈ (filed {} members).merged ++ (filed {} members).overriding,
          item.RootDistinct :=
        List.forall_mem_append.2 ⟨forall_mem_picked hplain _, forall_mem_picked hplain _⟩
      have hreordered : (assemble ⟨[frame.source], .object raw, frame.metadata⟩
          (filed {} members)).Reordered
            (assemble ⟨[frame.source], .object raw', frame.metadata⟩ (filed {} others)) :=
        reordered_assemble (.object hraw hperm) (Members.distinct_ofList _) h.perm_kept
          (congrArg (List.map _) h.merged) (congrArg (List.map _) h.overriding) hitems
      exact ⟨_, _, rfl, rfl, hreordered, hreordered.metadata_eq, hreordered.sources_eq⟩

/-- A member to lay over the object. -/
def overMember : String × Node :=
  ("over", memberOf (.object [("a", .object [("x", .ofInt 7)])])
    Metadata.shouldOverride (.bool true))

/-- A member that is kept. -/
def keptMember : String × Node := ("a", memberOf (.object [("x", .ofInt 0)]) "note" .null)

/-- A member that is kept under another key. -/
def renamedMember : String × Node := ("old", memberOf (.ofInt 2) Metadata.renameKey (.string "c"))

/-- A member to merge under the object. -/
def underMember : String × Node :=
  ("under", memberOf (.object [("b", .null)]) Metadata.shouldMerge (.bool true))

def writtenMembers : List (String × Node) := [overMember, keptMember, renamedMember, underMember]

def movedMembers : List (String × Node) := [renamedMember, overMember, underMember, keptMember]

/-- What the members stood for in the first order. -/
def writtenRaw : List (String × Json) :=
  [("over", .null), ("a", .null), ("old", .null), ("under", .null)]

/-- What they stood for in the second one. -/
def movedRaw : List (String × Json) :=
  [("old", .null), ("over", .null), ("under", .null), ("a", .null)]

theorem rearranged_moved : Rearranged writtenMembers movedMembers := by
  have hrenamed : Rearranged writtenMembers [overMember, renamedMember, keptMember, underMember] :=
    rearranged_swap (by decide) [overMember] [underMember]
  have hunder : Rearranged [overMember, renamedMember, keptMember, underMember]
      [overMember, renamedMember, underMember, keptMember] :=
    rearranged_swap (by decide) [overMember, renamedMember] []
  have hover : Rearranged [overMember, renamedMember, underMember, keptMember] movedMembers :=
    rearranged_swap (by decide) [] [underMember, keptMember]
  exact (hrenamed.trans hunder).trans hover

/-- Only the keys of the object stand in another order. -/
theorem result_run_of_rearranged_moved :
    (Rearranged writtenMembers movedMembers ∧ Members.Distinct writtenRaw ∧
      writtenRaw.Perm movedRaw ∧ (∀ entry ∈ writtenMembers, misnamed? entry = none) ∧
      ∀ entry ∈ writtenMembers, entry.2.RootDistinct) ∧
    ∃ node node',
      (run bareFrame.path ⟨[bareFrame.source], .object writtenRaw, bareFrame.metadata⟩
        writtenMembers).result = .ok node ∧
      (run bareFrame.path ⟨[bareFrame.source], .object movedRaw, bareFrame.metadata⟩
        movedMembers).result = .ok node' ∧
      node.toJson = .object [("b", .null), ("a", .object [("x", .ofInt 7)]), ("c", .ofInt 2)] ∧
      node'.toJson = .object [("b", .null), ("c", .ofInt 2), ("a", .object [("x", .ofInt 7)])] ∧
      node.Reordered node' ∧ node'.metadata = node.metadata ∧ node'.sources = node.sources := by
  have hraw : Members.Distinct writtenRaw := by decide
  have hperm : writtenRaw.Perm movedRaw := by decide
  have hnamed : ∀ entry ∈ writtenMembers, misnamed? entry = none := by decide
  have hmembers : ∀ entry ∈ writtenMembers, entry.2.RootDistinct := by decide
  have hvalue : (run bareFrame.path ⟨[bareFrame.source], .object writtenRaw, bareFrame.metadata⟩
      writtenMembers).result.map Node.toJson = .ok (.object
        [("b", .null), ("a", .object [("x", .ofInt 7)]), ("c", .ofInt 2)]) := rfl
  have hvalue' : (run bareFrame.path ⟨[bareFrame.source], .object movedRaw, bareFrame.metadata⟩
      movedMembers).result.map Node.toJson = .ok (.object
        [("b", .null), ("c", .ofInt 2), ("a", .object [("x", .ofInt 7)])]) := rfl
  obtain ⟨node, node', hok, hok', h⟩ :=
    result_run_of_rearranged bareFrame rearranged_moved hraw hperm hnamed hmembers
  rw [hok] at hvalue
  rw [hok'] at hvalue'
  exact ⟨⟨rearranged_moved, hraw, hperm, hnamed, hmembers⟩, node, node', hok, hok',
    Except.ok.inj hvalue, Except.ok.inj hvalue', h⟩

end ObjectStep

end LayeredConfig
