import LayeredConfig.Proofs.Json.Distinct
import LayeredConfig.Toml.Reader

/-!
# TOML text spells no key twice

The entries of a document stay distinct along every walk that changes them (`distinct_within`): a
header, a dotted key and an inline table are such walks. So every statement keeps them distinct, and
the value of a document is (`Toml.distinct_parse`).
-/

namespace LayeredConfig

namespace Toml

theorem distinct_bounded? {negative : Bool} {n : Nat} {v : Json}
    (h : bounded? negative n = some v) : v.Distinct := by
  unfold bounded? at h
  split at h <;> split at h <;> cases h <;> exact .number _

theorem distinct_integer? {text : List Char} {v : Json} (h : integer? text = some v) :
    v.Distinct := by
  unfold integer? at h
  split at h
  all_goals
    obtain ⟨digits, -, h⟩ := Option.bind_eq_some_iff.1 h
    exact distinct_bounded? h

theorem distinct_float? {text : List Char} {v : Json} (h : float? text = some v) :
    v.Distinct := by
  unfold float? at h
  dsimp only at h
  split at h
  · cases h
    exact .null
  · obtain ⟨whole, -, h⟩ := Option.bind_eq_some_iff.1 h
    -- The fraction and the exponent are there or not, and nothing else depends on that.
    split at h
    all_goals
      obtain ⟨fraction, -, h⟩ := Option.bind_eq_some_iff.1 h
      split at h
    all_goals
      obtain ⟨exponent, -, h⟩ := Option.bind_eq_some_iff.1 h
      split at h
      · cases h
      · obtain ⟨x, -, rfl⟩ := Option.map_eq_some_iff.1 h
        exact .number _

theorem distinct_datetime? {text : List Char} {v : Json} (h : datetime? text = some v) :
    v.Distinct := by
  obtain ⟨normal, -, rfl⟩ := Option.map_eq_some_iff.1 h
  exact Json.distinct_object_singleton (.string normal)

theorem distinct_scalar? {text : List Char} {v : Json} (h : scalar? text = some v) :
    v.Distinct := by
  unfold scalar? at h
  split at h
  · cases h
    exact .bool true
  · split at h
    · cases h
      exact .bool false
    · rcases Option.or_eq_some_iff.1 h with h | ⟨-, h⟩
      · rcases Option.or_eq_some_iff.1 h with h | ⟨-, h⟩
        · exact distinct_integer? h
        · exact distinct_datetime? h
      · exact distinct_float? h

/-- The entries spell an object that is distinct. -/
def Entries.Distinct (entries : Entries) : Prop :=
  (Json.object (entriesToJson entries)).Distinct

theorem entriesToJson_eq_mapValues (entries : Entries) :
    entriesToJson entries = Members.mapValues Item.toJson entries := by
  induction entries with
  | nil => rw [entriesToJson, Members.mapValues_nil]
  | cons entry rest ih => rw [entriesToJson, ih, Members.mapValues_cons]

theorem elementsToJson_eq_map (elements : List Entries) :
    elementsToJson elements = elements.map fun entries => .object (entriesToJson entries) := by
  induction elements with
  | nil => rw [elementsToJson, List.map_nil]
  | cons entries rest ih => rw [elementsToJson, ih, List.map_cons]

theorem distinct_table_iff {origin : Origin} {entries : Entries} :
    (Item.table origin entries).toJson.Distinct ↔ entries.Distinct := by
  rw [Item.toJson, Entries.Distinct]

theorem distinct_tables_iff {elements : List Entries} :
    (Item.tables elements).toJson.Distinct ↔ ∀ entries ∈ elements, entries.Distinct := by
  rw [Item.toJson, elementsToJson_eq_map]
  constructor
  · intro h entries hentries
    cases h with
    | array h => exact h _ (List.mem_reverse.2 (List.mem_map_of_mem hentries))
  · intro h
    refine .array fun item hitem => ?_
    obtain ⟨entries, hentries, rfl⟩ := List.mem_map.1 (List.mem_reverse.1 hitem)
    exact h entries hentries

theorem Entries.distinct_nil : Entries.Distinct [] := .object List.nodup_nil nofun

theorem Entries.Distinct.item {entries : Entries} (h : entries.Distinct) {key : String}
    {item : Item} (hitem : Members.get? key entries = some item) : item.toJson.Distinct := by
  have hmem : (key, item.toJson) ∈ entriesToJson entries := by
    rw [entriesToJson_eq_mapValues]
    exact List.mem_map_of_mem (Members.mem_of_get?_eq_some hitem)
  exact Json.Distinct.member h hmem

theorem Entries.Distinct.insert {entries : Entries} (h : entries.Distinct) (key : String)
    {item : Item} (hitem : item.toJson.Distinct) :
    Entries.Distinct (Members.insert key item entries) := by
  unfold Entries.Distinct at h ⊢
  rw [entriesToJson_eq_mapValues] at h ⊢
  rw [Members.mapValues_insert]
  refine .object h.members.insert fun other v hentry => ?_
  rcases Members.mem_insert hentry with heq | hold
  · cases heq
    exact hitem
  · exact h.member hold

/-- A walk along a path keeps entries distinct if the change at its end does. -/
theorem distinct_within {dotted : Bool} {change : Origin → Entries → Option Entries}
    (hchange : ∀ origin entries changed, entries.Distinct → change origin entries = some changed →
      changed.Distinct) {path : List String} {origin : Origin} {entries changed : Entries}
    (h : within dotted change path origin entries = some changed) (hentries : entries.Distinct) :
    changed.Distinct := by
  induction path generalizing origin entries changed with
  | nil => exact hchange origin entries changed hentries h
  | cons key path ih =>
      rw [within] at h
      split at h
      · obtain ⟨inner, hinner, rfl⟩ := Option.map_eq_some_iff.1 h
        exact hentries.insert key (distinct_table_iff.2 (ih hinner Entries.distinct_nil))
      · next made inner hitem =>
          split at h
          · cases h
          · obtain ⟨added, hadded, rfl⟩ := Option.map_eq_some_iff.1 h
            have hinner := distinct_table_iff.1 (hentries.item hitem)
            exact hentries.insert key (distinct_table_iff.2 (ih hadded hinner))
      · next last earlier hitem =>
          obtain ⟨added, hadded, rfl⟩ := Option.map_eq_some_iff.1 h
          obtain ⟨hlast, hearlier⟩ :=
            List.forall_mem_cons.1 (distinct_tables_iff.1 (hentries.item hitem))
          refine hentries.insert key (distinct_tables_iff.2 (List.forall_mem_cons.2 ⟨?_, hearlier⟩))
          exact ih hadded hlast
      · cases h
      · cases h

theorem distinct_assign {path : List String} {key : String} {v : Json} (hv : v.Distinct)
    {origin : Origin} {entries changed : Entries}
    (h : assign path key v origin entries = some changed) (hentries : entries.Distinct) :
    changed.Distinct := by
  refine distinct_within (fun origin entries changed hentries h => ?_) h hentries
  split at h
  · cases h
  · cases h
    exact hentries.insert key hv

theorem distinct_openTable {path : List String} {key : String} {entries changed : Entries}
    (h : openTable path key entries = some changed) (hentries : entries.Distinct) :
    changed.Distinct := by
  refine distinct_within (fun origin entries changed hentries h => ?_) h hentries
  split at h
  · cases h
    exact hentries.insert key (distinct_table_iff.2 Entries.distinct_nil)
  · next inner hitem =>
      cases h
      have hinner := distinct_table_iff.1 (hentries.item hitem)
      exact hentries.insert key (distinct_table_iff.2 hinner)
  · cases h

theorem distinct_openElement {path : List String} {key : String} {entries changed : Entries}
    (h : openElement path key entries = some changed) (hentries : entries.Distinct) :
    changed.Distinct := by
  refine distinct_within (fun origin entries changed hentries h => ?_) h hentries
  split at h
  · cases h
    exact hentries.insert key
      (distinct_tables_iff.2 (List.forall_mem_singleton.2 Entries.distinct_nil))
  · next elements hitem =>
      cases h
      exact hentries.insert key (distinct_tables_iff.2
        (List.forall_mem_cons.2
          ⟨Entries.distinct_nil, distinct_tables_iff.1 (hentries.item hitem)⟩))
  · cases h

theorem distinct_foldlM {α : Type} {step : Entries → α → Option Entries} {found : List α}
    (hstep : ∀ a ∈ found, ∀ entries changed, entries.Distinct → step entries a = some changed →
      changed.Distinct)
    {entries changed : Entries} (hentries : entries.Distinct)
    (h : found.foldlM step entries = some changed) : changed.Distinct := by
  induction found generalizing entries with
  | nil =>
      cases h
      exact hentries
  | cons first rest ih =>
      obtain ⟨hfirst, hrest⟩ := List.forall_mem_cons.1 hstep
      rw [List.foldlM_cons] at h
      obtain ⟨next, hnext, h⟩ := Option.bind_eq_some_iff.1 h
      exact ih hrest (hfirst _ _ hentries hnext) h

theorem distinct_inlineTable? {assignments : List (List String × Json)} {v : Json}
    (h : inlineTable? assignments = some v) (hvalues : ∀ entry ∈ assignments, entry.2.Distinct) :
    v.Distinct := by
  obtain ⟨entries, hentries, h⟩ := Option.bind_eq_some_iff.1 h
  cases h
  refine distinct_foldlM (fun entry hentry entries changed hdistinct h => ?_)
    Entries.distinct_nil hentries
  obtain ⟨key, -, hassign⟩ := Option.bind_eq_some_iff.1 h
  exact distinct_assign (hvalues entry hentry) hassign hdistinct

variable {α : Type} {P : α → Prop} {close : Char} {part : List Char → Option (α × List Char)}

theorem spells_parts? (h : Spells P part) (fuel : Nat) :
    Spells (fun found => ∀ a ∈ found, P a) (parts? close part fuel) := by
  induction fuel with
  | zero => exact fun _ _ _ => nofun
  | succ fuel ih =>
      intro text found rest hread
      obtain ⟨text, -, hread⟩ := Option.bind_eq_some_iff.1 hread
      dsimp only at hread
      split at hread
      · cases hread
        exact nofun
      · obtain ⟨⟨first, behind⟩, hfirst, hread⟩ := Option.bind_eq_some_iff.1 hread
        obtain ⟨behind, -, hread⟩ := Option.bind_eq_some_iff.1 hread
        dsimp only at hread
        split at hread
        · obtain ⟨⟨others, behind⟩, hothers, hread⟩ := Option.bind_eq_some_iff.1 hread
          cases hread
          exact List.forall_mem_cons.2 ⟨h _ _ _ hfirst, ih _ _ _ hothers⟩
        · split at hread
          · cases hread
            exact List.forall_mem_singleton.2 (h _ _ _ hfirst)
          · cases hread
        · cases hread

theorem spells_assignment? {skip : List Char → Option (List Char)}
    {value : List Char → Option (Json × List Char)} (h : Spells Json.Distinct value) :
    Spells (fun entry => entry.2.Distinct) (assignment? skip value) := by
  intro text entry rest hread
  obtain ⟨⟨keys, behind⟩, -, hread⟩ := Option.bind_eq_some_iff.1 hread
  obtain ⟨behind, -, hread⟩ := Option.bind_eq_some_iff.1 hread
  dsimp only at hread
  split at hread
  · obtain ⟨skipped, -, hread⟩ := Option.bind_eq_some_iff.1 hread
    obtain ⟨⟨v, behind⟩, hv, hread⟩ := Option.bind_eq_some_iff.1 hread
    cases hread
    exact h _ _ _ hv
  · cases hread

theorem spells_value? (levels : Nat) : Spells Json.Distinct (value? levels) := by
  have hplain : Spells Json.Distinct fun text =>
      if text.head? = some '"' ∨ text.head? = some '\'' then
        (string? text).map fun found => (.string found.1, found.2)
      else (scalar? (cutScalar text).1).map fun v => (v, (cutScalar text).2) := by
    intro text v rest hread
    dsimp only at hread
    split at hread
    · obtain ⟨found, -, heq⟩ := Option.map_eq_some_iff.1 hread
      cases heq
      exact .string _
    · obtain ⟨scalar, hscalar, heq⟩ := Option.map_eq_some_iff.1 hread
      cases heq
      exact distinct_scalar? hscalar
  induction levels with
  | zero =>
      intro text v rest hread
      unfold value? at hread
      split at hread
      · cases hread
      · cases hread
      · exact hplain _ _ _ hread
  | succ levels ih =>
      intro text v rest hread
      unfold value? at hread
      split at hread
      · obtain ⟨⟨items, behind⟩, hitems, heq⟩ := Option.map_eq_some_iff.1 hread
        cases heq
        exact .array (spells_parts? ih _ _ _ _ hitems)
      · obtain ⟨⟨assignments, behind⟩, hparts, hread⟩ := Option.bind_eq_some_iff.1 hread
        obtain ⟨table, htable, heq⟩ := Option.map_eq_some_iff.1 hread
        cases heq
        exact distinct_inlineTable? htable (spells_parts? (spells_assignment? ih) _ _ _ _ hparts)
      · exact hplain _ _ _ hread

theorem distinct_statement? {document changed : Document} {text rest : List Char}
    (h : statement? document text = some (changed, rest)) (hentries : document.entries.Distinct) :
    changed.entries.Distinct := by
  unfold statement? at h
  split at h
  · obtain ⟨⟨keys, behind⟩, -, h⟩ := Option.bind_eq_some_iff.1 h
    dsimp only at h
    split at h
    · obtain ⟨key, -, h⟩ := Option.bind_eq_some_iff.1 h
      obtain ⟨entries, hopen, h⟩ := Option.bind_eq_some_iff.1 h
      cases h
      exact distinct_openElement hopen hentries
    · cases h
  · obtain ⟨⟨keys, behind⟩, -, h⟩ := Option.bind_eq_some_iff.1 h
    dsimp only at h
    split at h
    · obtain ⟨key, -, h⟩ := Option.bind_eq_some_iff.1 h
      obtain ⟨entries, hopen, h⟩ := Option.bind_eq_some_iff.1 h
      cases h
      exact distinct_openTable hopen hentries
    · cases h
  · obtain ⟨⟨⟨keys, v⟩, behind⟩, hassignment, h⟩ := Option.bind_eq_some_iff.1 h
    obtain ⟨key, -, h⟩ := Option.bind_eq_some_iff.1 h
    obtain ⟨entries, hwithin, h⟩ := Option.bind_eq_some_iff.1 h
    cases h
    have hv : v.Distinct := spells_assignment? (spells_value? _) _ _ _ hassignment
    exact distinct_within (fun _ _ _ hdistinct hassign => distinct_assign hv hassign hdistinct)
      hwithin hentries

theorem distinct_statements? {fuel : Nat} {document read : Document} {text : List Char}
    (h : statements? fuel document text = some read) (hentries : document.entries.Distinct) :
    read.entries.Distinct := by
  induction fuel generalizing document text with
  | zero => cases h
  | succ fuel ih =>
      obtain ⟨text, -, h⟩ := Option.bind_eq_some_iff.1 h
      split at h
      · cases h
        exact hentries
      · obtain ⟨⟨next, behind⟩, hstatement, h⟩ := Option.bind_eq_some_iff.1 h
        obtain ⟨behind, -, h⟩ := Option.bind_eq_some_iff.1 h
        have hnext := distinct_statement? hstatement hentries
        split at h
        · exact ih h hnext
        · split at h
          · cases h
            exact hnext
          · cases h

theorem distinct_parse {text : String} {v : Json} (h : parse text = some v) : v.Distinct := by
  obtain ⟨document, hdocument, rfl⟩ := Option.map_eq_some_iff.1 h
  exact Json.Distinct.sorted (distinct_statements? hdocument Entries.distinct_nil)

end Toml

end LayeredConfig
