import LayeredConfig.Proofs.Toml.Distinct
import LayeredConfig.Source.Read

/-!
# What sources give writes no key twice

Text of JSON and TOML and the values of variables are distinct, fallbacks hand a value on and
combinations overlay values. So a source gives a distinct value as long as the values that the
caller put into it are distinct (`Source.Proper.distinct_readValue`).
-/

namespace LayeredConfig

namespace Variable

theorem distinct_ofBinary64? (x : Option Binary64) : (Json.ofBinary64? x).Distinct := by
  cases x with
  | none => exact .null
  | some x => exact .number _

theorem distinct_decimal? {text : List Char} {v : Json} (h : decimal? text = some v) :
    v.Distinct := by
  unfold decimal? at h
  dsimp only at h
  split at h
  · obtain ⟨exponent, -, h⟩ := Option.bind_eq_some_iff.1 h
    obtain ⟨digits, -, rfl⟩ := Option.map_eq_some_iff.1 h
    exact distinct_ofBinary64? _
  · cases h

theorem distinct_wordValue (word : List Char) : (wordValue word).Distinct := by
  unfold wordValue
  split
  · next v hv => exact distinct_decimal? hv
  · split
    · exact .number _
    · exact .number _
    · exact .string _

variable {α : Type} {P : α → Prop} {close : Char} {part : Step α}

theorem spells_parts (h : Spells P part) (fuel : Nat) :
    Spells (fun found => ∀ a ∈ found, P a) (parts close part fuel) := by
  induction fuel with
  | zero => exact fun _ _ _ => nofun
  | succ fuel ih =>
      intro text found rest hread
      rw [parts] at hread
      split at hread
      · cases hread
        exact nofun
      · obtain ⟨⟨first, behind⟩, hfirst, hread⟩ := Option.bind_eq_some_iff.1 hread
        dsimp only at hread
        split at hread
        · obtain ⟨⟨others, behind⟩, hothers, hread⟩ := Option.bind_eq_some_iff.1 hread
          cases hread
          exact List.forall_mem_cons.2 ⟨h _ _ _ hfirst, ih _ _ _ hothers⟩
        · split at hread
          · cases hread
            exact List.forall_mem_singleton.2 (h _ _ _ hfirst)
          · cases hread
        · cases hread

theorem spells_entry {value : Step Json} (h : Spells Json.Distinct value) :
    Spells (fun entry => entry.2.Distinct) (entry value) := by
  intro text found rest hread
  obtain ⟨⟨name, behind⟩, -, hread⟩ := Option.bind_eq_some_iff.1 hread
  dsimp only at hread
  split at hread
  · obtain ⟨⟨v, behind⟩, hv, hread⟩ := Option.bind_eq_some_iff.1 hread
    cases hread
    exact h _ _ _ hv
  · cases hread

theorem spells_bare (levels : Nat) : Spells Json.Distinct (bare levels) := by
  induction levels with
  | zero => exact fun _ _ _ => nofun
  | succ levels ih =>
      intro text v rest hread
      have hvalue : Spells Json.Distinct fun text =>
          (bare levels (skipBlanks text)).map fun found => (found.1, skipBlanks found.2) := by
        intro text v rest hread
        obtain ⟨found, hfound, heq⟩ := Option.map_eq_some_iff.1 hread
        cases heq
        exact ih _ _ _ hfound
      unfold bare at hread
      split at hread
      · cases hread
        exact .bool true
      · cases hread
        exact .bool false
      · obtain ⟨⟨entries, behind⟩, hentries, heq⟩ := Option.map_eq_some_iff.1 hread
        cases heq
        exact Json.distinct_object_ofList (spells_parts (spells_entry hvalue) _ _ _ _ hentries)
      · obtain ⟨⟨items, behind⟩, hitems, heq⟩ := Option.map_eq_some_iff.1 hread
        cases heq
        exact .array (spells_parts hvalue _ _ _ _ hitems)
      · obtain ⟨⟨s, behind⟩, -, heq⟩ := Option.map_eq_some_iff.1 hread
        cases heq
        exact .string _
      · cases hread
        exact .string _
      · cases hread
      · cases hread
        exact distinct_wordValue _

theorem distinct_value (text : String) : (value text).Distinct := by
  unfold value
  dsimp only
  split
  · next v rest hread =>
      split
      · exact spells_bare _ _ _ _ hread
      · exact .string _
  · exact .string _

theorem distinct_nest (keys : List String) {v : Json} (h : v.Distinct) :
    (nest keys v).Distinct := by
  induction keys with
  | nil => exact h
  | cons key rest ih => exact Json.distinct_object_singleton ih

theorem distinct_gather? {start : String} {separator : Option String}
    {assignments : List (Bytes × Bytes)} {v : Json}
    (h : gather? start separator assignments = some v) : v.Distinct := by
  unfold gather? at h
  dsimp only at h
  split at h
  · cases h
  · cases h
    have hempty : (Json.object []).Distinct := Json.distinct_object_ofList (List.forall_mem_nil _)
    refine (hempty.overlayAll ?_).sorted
    intro layer hlayer
    obtain ⟨assignment, -, hlayer⟩ := List.mem_filterMap.1 hlayer
    obtain ⟨keys, -, rfl⟩ := Option.map_eq_some_iff.1 hlayer
    exact distinct_nest keys (distinct_value _)

end Variable

namespace Source

/-- The values that a caller has put into the source write no key twice. -/
inductive Proper (host : Host) : Source → Prop
  | literal {id : Nat} {value : Json} (h : value.Distinct) : Proper host (.literal id value)
  | file {id : Nat} {path : String} : Proper host (.file id path)
  | variable {id : Nat} {name : String} {format : VariableFormat} :
      Proper host (.variable id name format)
  | variables {id : Nat} {start : String} {separator : Option String} :
      Proper host (.variables id start separator)
  | fallback {id : Nat} {members : List Source} (h : ∀ s ∈ members, Proper host s) :
      Proper host (.fallback id members)
  | combined {id : Nat} {members : List Source} (h : ∀ s ∈ members, Proper host s) :
      Proper host (.combined id members)
  | custom {id : Nat} {description : String} {value : Host → Except ConfigError Json}
      (h : ∀ v, value host = .ok v → v.Distinct) : Proper host (.custom id description value)

variable {host : Host} {v : Json}

theorem distinct_readFile {path : String} (h : (readFile host path).result = .ok v) :
    v.Distinct := by
  unfold readFile at h
  split at h
  · cases h
  · rw [Logged.result_bind] at h
    obtain ⟨_, -, h⟩ := ok_of_bind h
    split at h
    · cases h
    · split at h
      · split at h
        · next hparse =>
            cases h
            exact Json.distinct_parse hparse
        · cases h
      · split at h
        · next hparse =>
            cases h
            exact Toml.distinct_parse hparse
        · cases h
      · cases h

theorem distinct_readVariable {name : String} {format : VariableFormat}
    (h : (readVariable host name format).result = .ok v) : v.Distinct := by
  unfold readVariable at h
  dsimp only at h
  split at h
  · cases h
  · split at h
    · cases h
    · split at h
      · split at h
        · next hparse =>
            cases h
            exact Json.distinct_parse hparse
        · cases h
      · split at h
        · next hparse =>
            cases h
            exact Toml.distinct_parse hparse
        · cases h
      · cases h
        exact .string _

theorem distinct_readVariables {start : String} {separator : Option String}
    (h : (readVariables host start separator).result = .ok v) : v.Distinct := by
  unfold readVariables at h
  split at h
  · next hgather =>
      cases h
      exact Variable.distinct_gather? hgather
  · cases h

theorem distinct_firstValue {origin : String} {members : List Source}
    (hmembers : ∀ s ∈ members, ∀ v, (readValue host s).result = .ok v → v.Distinct)
    (h : (firstValue host origin members).result = .ok v) : v.Distinct := by
  induction members with
  | nil => cases h
  | cons s rest ih =>
      obtain ⟨hs, hrest⟩ := List.forall_mem_cons.1 hmembers
      rw [firstValue, Logged.result_orElseMissing] at h
      split at h
      · next hread =>
          cases h
          exact hs v hread
      · split at h
        · exact ih hrest h
        · cases h

theorem distinct_valueOver {base : Json} {members : List Source} (hbase : base.Distinct)
    (hmembers : ∀ s ∈ members, ∀ v, (readValue host s).result = .ok v → v.Distinct)
    (h : (valueOver host base members).result = .ok v) : v.Distinct := by
  induction members generalizing base with
  | nil =>
      cases h
      exact hbase
  | cons s rest ih =>
      obtain ⟨hs, hrest⟩ := List.forall_mem_cons.1 hmembers
      rw [valueOver, Logged.result_bind] at h
      obtain ⟨layer, hlayer, h⟩ := ok_of_bind h
      exact ih (hbase.overlay (hs layer hlayer)) hrest h

theorem Proper.distinct_readValue {s : Source} (hs : s.Proper host)
    (h : (readValue host s).result = .ok v) : v.Distinct := by
  induction hs generalizing v with
  | literal hvalue =>
      cases h
      exact hvalue
  | file => exact distinct_readFile h
  | «variable» => exact distinct_readVariable h
  | «variables» => exact distinct_readVariables h
  | fallback _ ih => exact distinct_firstValue (fun s hs v => ih s hs) h
  | @combined id members _ ih =>
      cases members with
      | nil => cases h
      | cons s rest =>
          have hmembers : ∀ t ∈ s :: rest, ∀ v, (readValue host t).result = .ok v → v.Distinct :=
            fun t ht v => ih t ht
          obtain ⟨hfirst, hrest⟩ := List.forall_mem_cons.1 hmembers
          rw [readValue, combinedValue, Logged.result_bind] at h
          obtain ⟨base, hbase, h⟩ := ok_of_bind h
          exact distinct_valueOver (hfirst base hbase) hrest h
  | custom hvalue => exact hvalue v h

end Source

end LayeredConfig
