import LayeredConfig.Json.Reader
import LayeredConfig.Json.Sorted
import LayeredConfig.Proofs.Merge.Regrouping

/-!
# Values that write no key twice

Objects are filled through `Members.insert` and `Members.ofList`, so the values that are built here
are distinct: sorting keeps it (`Json.Distinct.sorted`), as overlaying does, and what JSON text
spells has it (`Json.distinct_parse`). `Gives` and `Spells` say of a reader that all values it gives
satisfy something, for the two kinds of readers there are.
-/

namespace LayeredConfig

theorem ok_of_bind {ε α β : Type} {x : Except ε α} {f : α → Except ε β} {b : β}
    (h : (x >>= f) = .ok b) : ∃ a, x = .ok a ∧ f a = .ok b := by
  cases x with
  | error e => cases h
  | ok a => exact ⟨a, rfl, h⟩

theorem ok_of_map {ε α β : Type} {x : Except ε α} {f : α → β} {b : β}
    (h : x.map f = .ok b) : ∃ a, x = .ok a ∧ f a = b := by
  cases x with
  | error e => cases h
  | ok a => exact ⟨a, rfl, Except.ok.inj h⟩

/-- Whatever the reader gives satisfies `P`. -/
def Spells {α : Type} (P : α → Prop) (read : List Char → Option (α × List Char)) : Prop :=
  ∀ text a rest, read text = some (a, rest) → P a

namespace Json

theorem distinct_object_ofList {entries : List (String × Json)}
    (h : ∀ entry ∈ entries, entry.2.Distinct) : (object (Members.ofList entries)).Distinct :=
  .object (Members.distinct_ofList entries) fun _ _ hentry => h _ (Members.mem_ofList hentry)

theorem distinct_object_singleton {key : String} {v : Json} (h : v.Distinct) :
    (object [(key, v)]).Distinct := by
  have hentries : ∀ entry ∈ [(key, v)], entry.2.Distinct := List.forall_mem_singleton.2 h
  exact distinct_object_ofList hentries

theorem sortedItems_eq_map (items : List Json) : sortedItems items = items.map sorted := by
  induction items with
  | nil => rw [sortedItems, List.map_nil]
  | cons item rest ih => rw [sortedItems, ih, List.map_cons]

theorem sortedMembers_eq_mapValues (members : List (String × Json)) :
    sortedMembers members = Members.mapValues sorted members := by
  induction members with
  | nil => rw [sortedMembers, Members.mapValues_nil]
  | cons entry rest ih => rw [sortedMembers, ih, Members.mapValues_cons]

theorem Distinct.sorted {v : Json} (h : v.Distinct) : v.sorted.Distinct := by
  induction v using Json.induct with
  | array items ih =>
      cases h with
      | array hitems =>
          rw [Json.sorted, sortedItems_eq_map]
          exact .array (List.forall_mem_map.2 fun item hitem => ih item hitem (hitems item hitem))
  | object members ih =>
      rw [Json.sorted, sortedMembers_eq_mapValues]
      refine .object (distinct_sortMembers ((Members.distinct_mapValues _).2 h.members)) ?_
      intro key value hmem
      obtain ⟨entry, hentry, heq⟩ := List.mem_map.1 ((sortMembers_perm _).mem_iff.1 hmem)
      cases heq
      exact ih entry hentry (h.member hentry)
  | _ => simpa [Json.sorted] using h

/-! ### JSON text -/

/-- Whatever the reader gives satisfies `P`. -/
def Gives {α : Type} (P : α → Prop) (read : Reading α) : Prop :=
  ∀ text a rest, read text = .ok (a, rest) → P a

theorem eq_of_word {value v : Json} {ws text rest : List Char}
    (h : word value ws text = .ok (v, rest)) : v = value := by
  induction ws generalizing text with
  | nil => cases h; rfl
  | cons w ws ih =>
      cases text with
      | nil => cases h
      | cons c text =>
          rw [word] at h
          split at h
          · exact ih h
          · cases h

theorem Gives.scalarOr {container : Reading Json} (h : Gives Distinct container) :
    Gives Distinct (scalarOr container) := by
  intro text v rest hread
  unfold Json.scalarOr at hread
  split at hread
  · exact eq_of_word hread ▸ .null
  · exact eq_of_word hread ▸ .bool true
  · exact eq_of_word hread ▸ .bool false
  · obtain ⟨found, -, heq⟩ := ok_of_map hread
    cases heq
    exact .string _
  · exact h _ _ _ hread
  · exact h _ _ _ hread
  · split at hread
    · obtain ⟨found, -, heq⟩ := ok_of_map hread
      cases heq
      exact .number _
    · cases hread
  · cases hread

variable {α : Type} {P : α → Prop} {close : Char} {part : Reading α}

theorem Gives.moreParts (h : Gives P part) (fuel : Nat) :
    Gives (fun found => ∀ a ∈ found, P a) (moreParts close part fuel) := by
  induction fuel with
  | zero => exact fun _ _ _ => nofun
  | succ fuel ih =>
      intro text found rest hread
      rw [Json.moreParts] at hread
      split at hread
      · cases hread
      · split at hread
        · cases hread
          exact nofun
        · split at hread
          · obtain ⟨first, hfirst, hread⟩ := ok_of_bind hread
            obtain ⟨others, hothers, hread⟩ := ok_of_bind hread
            cases hread
            exact List.forall_mem_cons.2 ⟨h _ _ _ hfirst, ih _ _ _ hothers⟩
          · cases hread

theorem Gives.parts (h : Gives P part) :
    Gives (fun found => ∀ a ∈ found, P a) (parts close part) := by
  intro text found rest hread
  rw [Json.parts] at hread
  split at hread
  · cases hread
  · split at hread
    · cases hread
      exact nofun
    · obtain ⟨first, hfirst, hread⟩ := ok_of_bind hread
      obtain ⟨others, hothers, hread⟩ := ok_of_bind hread
      cases hread
      exact List.forall_mem_cons.2 ⟨h _ _ _ hfirst, h.moreParts _ _ _ _ hothers⟩

theorem Gives.member {value : Reading Json} (h : Gives Distinct value) :
    Gives (fun entry => entry.2.Distinct) (member value) := by
  intro text entry rest hread
  unfold Json.member at hread
  split at hread
  · obtain ⟨⟨key, behind⟩, -, hread⟩ := ok_of_bind hread
    dsimp only at hread
    split at hread
    · obtain ⟨found, hfound, hread⟩ := ok_of_bind hread
      cases hread
      exact h _ _ _ hfound
    · cases hread
  · cases hread

theorem Gives.container {value : Reading Json} (h : Gives Distinct value) :
    Gives Distinct (container value) := by
  intro text v rest hread
  unfold Json.container at hread
  split at hread
  · obtain ⟨items, hitems, heq⟩ := ok_of_map hread
    cases heq
    exact .array (h.parts _ _ _ hitems)
  · obtain ⟨entries, hentries, heq⟩ := ok_of_map hread
    cases heq
    exact distinct_object_ofList (h.member.parts _ _ _ hentries)
  · cases hread

theorem gives_value (levels : Nat) : Gives Distinct (value levels) := by
  induction levels with
  | zero => exact Gives.scalarOr fun _ _ _ => nofun
  | succ levels ih => exact ih.container.scalarOr

theorem distinct_parse {text : String} {v : Json} (h : parse text = .ok v) : v.Distinct := by
  obtain ⟨⟨found, rest⟩, hfound, h⟩ := ok_of_bind h
  dsimp only at h
  split at h
  · cases h
    exact gives_value _ _ _ _ hfound
  · cases h

end Json

end LayeredConfig
