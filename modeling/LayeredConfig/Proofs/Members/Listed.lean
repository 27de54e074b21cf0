import LayeredConfig.Proofs.Members.Union

/-!
# Maps from lists of entries

`ofList` inserts entries one after the other, so the last entry of a key gives its value. The
recursion that inserts keeps the map built so far; the statements here go along the list itself:
`mem_ofList_cons` says when the first entry of a list survives the others, and `ofList_eq_self`
that a list without repeated keys is the map it spells.
-/

namespace LayeredConfig

namespace Members

variable {α : Type}

theorem mem_keys_insert {key other : String} {value : α} {ms : Members α} :
    other ∈ keys (insert key value ms) ↔ other = key ∨ other ∈ keys ms := by
  by_cases h : key ∈ keys ms
  · rw [keys_insert_of_mem h]
    exact ⟨.inr, fun hother => hother.elim (fun heq => heq ▸ h) id⟩
  · rw [insert_of_not_mem h, keys_append, List.mem_append, or_comm]
    simp

theorem mem_keys_extend {key : String} {base upper : Members α} :
    key ∈ keys (extend base upper) ↔ key ∈ keys base ∨ key ∈ keys upper := by
  induction upper generalizing base with
  | nil => simp [extend]
  | cons entry rest ih =>
      change key ∈ keys (extend (insert entry.1 entry.2 base) rest) ↔ _
      rw [ih, mem_keys_insert, keys_cons, List.mem_cons, or_assoc, or_left_comm]

theorem get?_extend (key : String) (base upper : Members α) :
    get? key (extend base upper) = (get? key upper.reverse).or (get? key base) := by
  induction upper generalizing base with
  | nil => rfl
  | cons entry rest ih =>
      change get? key (extend (insert entry.1 entry.2 base) rest) = _
      rw [ih, get?_insert, List.reverse_cons, get?_append, get?_cons, get?_nil, Option.or_assoc]
      by_cases h : entry.1 = key
      · simp [h]
      · simp [h]

/-- The last entry of a key gives its value. -/
theorem get?_ofList (key : String) (entries : List (String × α)) :
    get? key (ofList entries) = get? key entries.reverse := by
  rw [ofList, get?_extend, get?_nil, Option.or_none]

theorem mem_ofList_iff {entry : String × α} {entries : List (String × α)} :
    entry ∈ ofList entries ↔ get? entry.1 entries.reverse = some entry.2 := by
  rw [← get?_ofList]
  exact ⟨get?_of_mem (distinct_ofList entries), mem_of_get?_eq_some⟩

/-- The first entry of a list survives when no other entry has its key. -/
theorem mem_ofList_cons {entry first : String × α} {rest : List (String × α)} :
    entry ∈ ofList (first :: rest) ↔
      entry ∈ ofList rest ∨ first.1 ∉ keys rest ∧ entry = first := by
  obtain ⟨key, value⟩ := entry
  obtain ⟨firstKey, firstValue⟩ := first
  have hkeys : get? key rest.reverse = none ↔ key ∉ keys rest := by
    rw [get?_eq_none_iff, keys, List.map_reverse, List.mem_reverse, keys]
  rw [mem_ofList_iff, mem_ofList_iff, List.reverse_cons, get?_append, get?_cons, get?_nil,
    Option.or_eq_some_iff, hkeys]
  refine or_congr_right ?_
  by_cases h : firstKey = key
  · subst h
    simp [eq_comm]
  · simp [h, Ne.symm h]

theorem forall_mem_ofList_cons {P : String × α → Prop} {first : String × α}
    {rest : List (String × α)} :
    (∀ entry ∈ ofList (first :: rest), P entry) ↔
      (first.1 ∉ keys rest → P first) ∧ ∀ entry ∈ ofList rest, P entry := by
  constructor
  · intro h
    refine ⟨fun hfirst => h first ?_, fun entry hentry => h entry ?_⟩
    · exact mem_ofList_cons.2 (.inr ⟨hfirst, rfl⟩)
    · exact mem_ofList_cons.2 (.inl hentry)
  · rintro ⟨hfirst, hrest⟩ entry hentry
    rcases mem_ofList_cons.1 hentry with hentry | ⟨hkey, rfl⟩
    · exact hrest entry hentry
    · exact hfirst hkey

theorem extend_eq_append {base upper : Members α} (h : Distinct (base ++ upper)) :
    extend base upper = base ++ upper := by
  induction upper generalizing base with
  | nil => exact (List.append_nil base).symm
  | cons entry rest ih =>
      obtain ⟨key, value⟩ := entry
      have hkey : key ∉ base.keys := by
        rw [Distinct, keys_append, List.nodup_append] at h
        intro hmem
        exact h.2.2 key hmem key (by simp) rfl
      have hsplit : base ++ (key, value) :: rest = (base ++ [(key, value)]) ++ rest := by simp
      change extend (insert key value base) rest = _
      rw [insert_of_not_mem hkey, hsplit]
      exact ih (hsplit ▸ h)

/-- A list that repeats no key is the map it spells. -/
theorem ofList_eq_self {entries : List (String × α)} (h : Distinct entries) :
    ofList entries = entries :=
  extend_eq_append h

end Members

end LayeredConfig
