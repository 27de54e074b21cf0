import LayeredConfig.Proofs.Evaluation.Marked
import LayeredConfig.Proofs.Json.Everywhere
import LayeredConfig.Proofs.ReservedKeys.Valid

/-!
# Stray keys and unescaping

A key is stray when it starts with the marker without doubling it: no unescaping makes it
literal, and validation is there to report it. Unescaping puts literal keys into the same map as
their siblings, so a stray key may meet the literal key that its own doubled spelling becomes, and
of the two the later one stays. The main statement, `validate_unescaped_iff`, says what validation
therefore accepts: exactly the values whose stray keys are all lost in this way.
-/

namespace LayeredConfig

namespace Marker

/-- The key starts with the marker, and not with the marker doubled. -/
def stray (marker key : String) : Bool := starts marker key && !starts (marker ++ marker) key

/-- The key that unescaping makes of a key. -/
def unescaped (marker key : String) : String := (literal? marker key).getD key

/-- Whether a stray key comes before its own spelling with the marker doubled. -/
def overtaken (marker : String) : List String → Bool
  | [] => false
  | key :: rest => (stray marker key && decide (marker ++ key ∈ rest)) || overtaken marker rest

variable {marker : String}

theorem starts_append (key : String) : starts marker (marker ++ key) = true :=
  starts_iff.2 ⟨key.toList, by simp⟩

theorem isSome_literal? (hm : marker ≠ "") (key : String) :
    (literal? marker key).isSome = starts (marker ++ marker) key := by
  rw [Bool.eq_iff_iff, Option.isSome_iff_exists, starts_iff]
  constructor
  · rintro ⟨name, h⟩
    obtain ⟨-, rfl, hname⟩ := literal?_eq_some_iff.1 h
    obtain ⟨rest, hrest⟩ := starts_iff.1 hname
    exact ⟨rest, by simp [hrest]⟩
  · rintro ⟨rest, h⟩
    refine ⟨marker ++ String.ofList rest, literal?_eq_some_iff.2 ⟨hm, ?_, starts_append _⟩⟩
    rw [← String.toList_inj, h]
    simp

theorem stray_iff (hm : marker ≠ "") {key : String} :
    stray marker key = true ↔ starts marker key = true ∧ literal? marker key = none := by
  rw [stray, ← isSome_literal? hm]
  simp

/-- Of two keys that unescaping makes one, one is stray and the other its doubled spelling. -/
theorem stray_of_unescaped_eq {key other : String} (hm : marker ≠ "")
    (h : unescaped marker key = unescaped marker other) (hne : key ≠ other) :
    stray marker key = true ∧ other = marker ++ key ∨
      stray marker other = true ∧ key = marker ++ other := by
  unfold unescaped at h
  cases hkey : literal? marker key with
  | none =>
      cases hother : literal? marker other with
      | none => simp [hkey, hother, hne] at h
      | some name =>
          obtain ⟨-, rfl, hname⟩ := literal?_eq_some_iff.1 hother
          rw [hkey, hother, Option.getD_none, Option.getD_some] at h
          subst h
          exact .inl ⟨(stray_iff hm).2 ⟨hname, hkey⟩, rfl⟩
  | some name =>
      obtain ⟨-, rfl, hname⟩ := literal?_eq_some_iff.1 hkey
      cases hother : literal? marker other with
      | none =>
          rw [hkey, hother, Option.getD_none, Option.getD_some] at h
          subst h
          exact .inr ⟨(stray_iff hm).2 ⟨hname, hother⟩, rfl⟩
      | some name' =>
          obtain ⟨-, rfl, -⟩ := literal?_eq_some_iff.1 hother
          rw [hkey, hother, Option.getD_some, Option.getD_some] at h
          exact absurd (congrArg (marker ++ ·) h) hne

theorem unescaped_append_of_stray {key : String} (hm : marker ≠ "")
    (h : stray marker key = true) : unescaped marker (marker ++ key) = unescaped marker key := by
  obtain ⟨hstarts, hnone⟩ := (stray_iff hm).1 h
  rw [unescaped, unescaped, hnone, literal?_eq_some_iff.2 ⟨hm, rfl, hstarts⟩]
  rfl

end Marker

namespace Json

mutual

/-- Whether unescaping loses every stray key of a value: in its object, the key with the marker
doubled comes later and takes its place, together with all that the stray key holds. -/
def straysLost (marker : String) : Json → Bool
  | .array items => itemsStraysLost marker items
  | .object members => membersStraysLost marker members
  | _ => true

def itemsStraysLost (marker : String) : List Json → Bool
  | [] => true
  | item :: rest => straysLost marker item && itemsStraysLost marker rest

def membersStraysLost (marker : String) : List (String × Json) → Bool
  | [] => true
  | (key, value) :: rest =>
    (if Marker.stray marker key then decide (marker ++ key ∈ Members.keys rest)
      else straysLost marker value) && membersStraysLost marker rest

end

variable {marker : String}

theorem itemsStraysLost_iff {items : List Json} :
    itemsStraysLost marker items = true ↔ ∀ item ∈ items, item.straysLost marker = true := by
  induction items with
  | nil => simp [itemsStraysLost]
  | cons item rest ih => rw [itemsStraysLost, Bool.and_eq_true, ih, List.forall_mem_cons]

theorem membersStraysLost_cons {key : String} {value : Json} {rest : List (String × Json)} :
    membersStraysLost marker ((key, value) :: rest) = true ↔
      (if Marker.stray marker key then marker ++ key ∈ Members.keys rest
        else value.straysLost marker = true) ∧ membersStraysLost marker rest = true := by
  rw [membersStraysLost, Bool.and_eq_true]
  by_cases h : Marker.stray marker key = true <;> simp [h]

theorem mem_keys_of_membersStraysLost {members : List (String × Json)} {key : String}
    (h : membersStraysLost marker members = true) (hkey : key ∈ Members.keys members)
    (hstray : Marker.stray marker key = true) : marker ++ key ∈ Members.keys members := by
  induction members with
  | nil => simp at hkey
  | cons entry rest ih =>
      obtain ⟨first, value⟩ := entry
      obtain ⟨hfirst, hrest⟩ := membersStraysLost_cons.1 h
      rw [Members.keys_cons] at hkey ⊢
      rcases List.mem_cons.1 hkey with rfl | hkey
      · rw [if_pos hstray] at hfirst
        exact List.mem_cons_of_mem _ hfirst
      · exact List.mem_cons_of_mem _ (ih hrest hkey)

/-- Behind a new key, a list whose stray keys are lost holds a key that unescaping makes the same
only when the new key is stray and the other its doubled spelling. -/
theorem exists_unescaped_eq_iff (hm : marker ≠ "") {key : String} {rest : List (String × Json)}
    (hlost : membersStraysLost marker rest = true) (hkey : key ∉ Members.keys rest) :
    (∃ other ∈ Members.keys rest,
        Marker.unescaped marker other = Marker.unescaped marker key) ↔
      Marker.stray marker key = true ∧ marker ++ key ∈ Members.keys rest := by
  constructor
  · rintro ⟨other, hother, heq⟩
    have hne : other ≠ key := by
      rintro rfl
      exact hkey hother
    rcases Marker.stray_of_unescaped_eq hm heq hne with ⟨hstray, rfl⟩ | ⟨hstray, rfl⟩
    · exact absurd (mem_keys_of_membersStraysLost hlost hother hstray) hkey
    · exact ⟨hstray, hother⟩
  · rintro ⟨hstray, hdoubled⟩
    exact ⟨marker ++ key, hdoubled, Marker.unescaped_append_of_stray hm hstray⟩

theorem straysLost_of_everywhere {v : Json}
    (h : v.Everywhere fun part => ∀ key ∈ part.keys, Marker.stray marker key = false) :
    v.straysLost marker = true := by
  induction v using Json.induct with
  | array items ih =>
      rw [straysLost, itemsStraysLost_iff]
      exact fun item hitem => ih item hitem ((everywhere_array.1 h).2 item hitem)
  | object members ih =>
      obtain ⟨hkeys, hvalues⟩ := everywhere_object.1 h
      rw [straysLost]
      clear h
      induction members with
      | nil => rfl
      | cons entry rest ihrest =>
          rw [keys_object, Members.keys_cons] at hkeys
          obtain ⟨hkey, hkeysrest⟩ := List.forall_mem_cons.1 hkeys
          obtain ⟨hvalue, hvaluesrest⟩ := List.forall_mem_cons.1 hvalues
          obtain ⟨hentry, hrest⟩ := List.forall_mem_cons.1 ih
          rw [membersStraysLost_cons, hkey]
          exact ⟨hentry hvalue, ihrest hrest hkeysrest hvaluesrest⟩
  | _ => rfl

/-- Where no stray key comes before its doubled spelling, none can be lost. -/
theorem everywhere_of_straysLost {v : Json} (hlost : v.straysLost marker = true)
    (h : v.Everywhere fun part => Marker.overtaken marker part.keys = false) :
    v.Everywhere fun part => ∀ key ∈ part.keys, Marker.stray marker key = false := by
  induction v using Json.induct with
  | array items ih =>
      rw [straysLost, itemsStraysLost_iff] at hlost
      refine everywhere_array.2 ⟨by simp, fun item hitem => ?_⟩
      exact ih item hitem (hlost item hitem) ((everywhere_array.1 h).2 item hitem)
  | object members ih =>
      obtain ⟨hkeys, hvalues⟩ := everywhere_object.1 h
      rw [straysLost] at hlost
      rw [everywhere_object]
      clear h
      induction members with
      | nil => simp
      | cons entry rest ihrest =>
          obtain ⟨key, value⟩ := entry
          obtain ⟨hvalue, hvaluesrest⟩ := List.forall_mem_cons.1 hvalues
          obtain ⟨hentry, hrest⟩ := List.forall_mem_cons.1 ih
          obtain ⟨hfirst, hlostrest⟩ := membersStraysLost_cons.1 hlost
          rw [keys_object, Members.keys_cons, Marker.overtaken, Bool.or_eq_false_iff] at hkeys
          obtain ⟨hkept, hkeptrest⟩ := ihrest hrest hlostrest hkeys.2 hvaluesrest
          cases hstray : Marker.stray marker key with
          | true => simp_all
          | false =>
              rw [hstray, if_neg Bool.false_ne_true] at hfirst
              refine ⟨List.forall_mem_cons.2 ⟨hstray, hkept⟩, ?_⟩
              exact List.forall_mem_cons.2 ⟨hentry hfirst hvalue, hkeptrest⟩
  | _ => exact (everywhere_of_isPrimitive rfl).2 (by simp [keys, members?])

end Json

namespace Node

theorem withMetadata_marked {mark : Position → Metadata} {source : Source} {metadata : Metadata}
    (v : Json) (other : Metadata) :
    (marked mark source metadata v).withMetadata other = marked mark source other v := by
  cases v with
  | array items => rw [marked, marked]; rfl
  | object members => rw [marked, marked]; rfl
  | _ => rw [marked_of_isPrimitive rfl, marked_of_isPrimitive rfl]; rfl

/-- The metadata of an unescaped member once its instruction has been followed. -/
def escapeFlag : Metadata := Metadata.empty.set Metadata.fromEscapedDirective (.bool true)

/-- A member of an object as unescaping leaves it. -/
def unescapedMember (marker : String) (source : Source) (entry : String × Json) : String × Node :=
  (Marker.unescaped marker entry.1, marked (unescapingMark marker) source
    (if (Marker.literal? marker entry.1).isSome then escapeFlag else .empty) entry.2)

theorem keptMember?_unescaping (marker : String) (source : Source) (entry : String × Json) :
    ObjectStep.keptMember? (entry.1, marked (unescapingMark marker) source
        (Metadata.empty.extended (unescapingMark marker (.key entry.1))) entry.2) =
      some (unescapedMember marker source entry) := by
  have hmark : unescapingMark marker (.key entry.1) =
      (Marker.literal? marker entry.1).elim .empty Extension.unescapedMetadata := rfl
  rw [hmark, unescapedMember, Marker.unescaped, ObjectStep.keptMember?, metadata_marked]
  cases Marker.literal? marker entry.1 with
  | none => rfl
  | some name =>
      have hrequest : ObjectStep.requestOf
          (Metadata.empty.extended (Extension.unescapedMetadata name)) =
            .rename (.string name) := rfl
      have hplain : (Metadata.empty.extended
          (Extension.unescapedMetadata name)).withoutInstructions = escapeFlag := rfl
      rw [Option.elim_some, hrequest]
      simp only [withoutInstructions, metadata_marked, withMetadata_marked, hplain]
      rfl

theorem marked_unescaping_object (marker : String) (source : Source) (metadata : Metadata)
    (members : List (String × Json)) :
    marked (unescapingMark marker) source metadata (.object members) =
      .object ⟨[source], .object members, metadata⟩
        (Members.ofList (members.map (unescapedMember marker source))) := by
  rw [marked, markedMembers_eq_map, List.filterMap_map]
  congr 2
  rw [← List.filterMap_eq_map]
  congr 1
  funext entry
  exact keptMember?_unescaping marker source entry

theorem marked_unescaping_array (marker : String) (source : Source) (metadata : Metadata)
    (items : List Json) :
    marked (unescapingMark marker) source metadata (.array items) =
      .array ⟨[source], .array items, metadata⟩
        (items.map (marked (unescapingMark marker) source .empty)) := by
  have hindex : ∀ index, unescapingMark marker (.index index) = .empty := fun _ => rfl
  rw [marked, markedItems_eq_map hindex]
  rfl

end Node

namespace ReservedKeys

variable {marker : String} {source : Source}

theorem violates_unescapedMember (hm : marker ≠ "") (entry : String × Json) :
    violates marker (Node.unescapedMember marker source entry) = Marker.stray marker entry.1 := by
  rw [violates, Node.unescapedMember, Node.metadata_marked, Marker.unescaped, Marker.stray,
    ← Marker.isSome_literal? hm]
  cases hname : Marker.literal? marker entry.1 with
  | none => simp [Metadata.flag]
  | some name => simp [Node.escapeFlag, Metadata.flag, Metadata.get?_set]

theorem keys_map_unescapedMember (members : List (String × Json)) :
    Members.keys (members.map (Node.unescapedMember marker source)) =
      (Members.keys members).map (Marker.unescaped marker) := by
  rw [Members.keys, Members.keys, List.map_map, List.map_map]
  rfl

theorem respects_unescaped_members_iff (hm : marker ≠ "") {members : List (String × Json)}
    (hd : Members.Distinct members)
    (h : ∀ entry ∈ members, ∀ metadata,
      Respects marker (Node.marked (unescapingMark marker) source metadata entry.2) ↔
        entry.2.straysLost marker = true) :
    (∀ entry ∈ Members.ofList (members.map (Node.unescapedMember marker source)),
        violates marker entry = false ∧ Respects marker entry.2) ↔
      Json.membersStraysLost marker members = true := by
  induction members with
  | nil => simp [Members.ofList, Members.extend, Json.membersStraysLost]
  | cons entry rest ih =>
      obtain ⟨key, value⟩ := entry
      obtain ⟨hkey, hdrest⟩ := List.nodup_cons.1 hd
      obtain ⟨hvalue, hrest⟩ := List.forall_mem_cons.1 h
      rw [List.map_cons, Members.forall_mem_ofList_cons, ih hdrest hrest,
        Json.membersStraysLost_cons]
      refine and_congr_left fun hlost => ?_
      have hreplaced : Marker.unescaped marker key ∈ Members.keys
          (rest.map (Node.unescapedMember marker source)) ↔
            Marker.stray marker key = true ∧ marker ++ key ∈ Members.keys rest := by
        rw [keys_map_unescapedMember, List.mem_map, Json.exists_unescaped_eq_iff hm hlost hkey]
      change (¬ Marker.unescaped marker key ∈ _ → _) ↔ _
      rw [violates_unescapedMember hm, hreplaced]
      cases hstray : Marker.stray marker key with
      | true =>
          -- The stray key itself is a violation, so it has to be replaced.
          simp
      | false =>
          -- No other key takes the place of this one: it would be a stray key that is kept.
          have hkept : Respects marker (Node.unescapedMember marker source (key, value)).2 ↔
              value.straysLost marker = true := hvalue _
          simpa using hkept

/-- Unescaping a value gives a tree that respects the reservation exactly when all its stray keys
are lost. -/
theorem respects_unescaped_iff (hm : marker ≠ "") {v : Json} (hv : v.Distinct)
    (metadata : Metadata) :
    Respects marker (Node.marked (unescapingMark marker) source metadata v) ↔
      v.straysLost marker = true := by
  induction v using Json.induct generalizing metadata with
  | array items ih =>
      cases hv with
      | array hitems =>
          rw [Node.marked_unescaping_array, respects_array, List.forall_mem_map, Json.straysLost,
            Json.itemsStraysLost_iff]
          exact forall₂_congr fun item hitem => ih item hitem (hitems item hitem) _
  | object members ih =>
      rw [Node.marked_unescaping_object, respects_object, Json.straysLost]
      exact respects_unescaped_members_iff hm hv.members fun entry hentry metadata =>
        ih entry hentry (hv.member hentry) metadata
  | _ => rw [Node.marked_of_isPrimitive rfl]; simp [Json.straysLost]

/-- What validation finds after unescaping alone: evaluation always gives a tree, and it passes
exactly when every stray key of the value is lost to its own doubled spelling, which comes later
in the same object, or lies below a key that is. Where no stray key comes before its doubled
spelling, the tree passes exactly when every key that starts with the marker starts with it
doubled. -/
theorem validate_unescaped_iff {ι : Type} [DecidableEq ι] (setting : Setting ι)
    (ev : Evaluator ι) {e : ι} {marker : String} (hm : marker ≠ "")
    (he : setting.catalogue e = .unescapeDirectives marker) (hext : ev.extensions = [e])
    {raw : Json} (hraw : raw.Distinct) (hlimit : 2 * (raw.depth + 1) ≤ setting.limit)
    (source : Source) :
    ∃ tree, (ev.evaluate setting raw source).result = .ok tree ∧
      (validate marker tree = .ok () ↔ raw.straysLost marker = true) ∧
      ((raw.Everywhere fun part => Marker.overtaken marker part.keys = false) →
        (validate marker tree = .ok () ↔ raw.Everywhere fun part => ∀ key ∈ part.keys,
          Marker.starts marker key = true → Marker.starts (marker ++ marker) key = true)) := by
  have hmarks : OnlyMarks setting.catalogue ev.extensions (unescapingMark marker) := by
    rw [hext]
    exact onlyMarks_unescapeDirectives he
  have hvalid : ∀ metadata, validate marker
      (Node.marked (unescapingMark marker) source metadata raw) = .ok () ↔
        raw.straysLost marker = true := by
    intro metadata
    rw [validate_eq_ok_iff hm, respects_unescaped_iff hm hraw]
  have hdoubled : (raw.Everywhere fun part => ∀ key ∈ part.keys,
      Marker.starts marker key = true → Marker.starts (marker ++ marker) key = true) ↔
        raw.Everywhere fun part => ∀ key ∈ part.keys, Marker.stray marker key = false := by
    refine forall₂_congr fun part _ => forall₂_congr fun key _ => ?_
    cases hstarts : Marker.starts marker key <;> simp [Marker.stray, hstarts]
  refine ⟨_, result_evaluate_eq_marked hmarks raw source hlimit, hvalid _, fun hkept => ?_⟩
  rw [hvalid, hdoubled]
  exact ⟨fun h => Json.everywhere_of_straysLost h hkept, Json.straysLost_of_everywhere⟩

def dollarSetting : Setting Unit := ⟨⟨[], []⟩, fun _ => .unescapeDirectives "$", 12⟩

/-- A document with an escaped key, and a stray key below it. -/
def strayDocument : Json :=
  .object [("$$list", .array [.object [("$typo", .null)], .ofInt 1]), ("plain", .bool true)]

theorem validate_unescaped_strayDocument :
    strayDocument.Distinct ∧
    (strayDocument.Everywhere fun part => Marker.overtaken "$" part.keys = false) ∧
    ∃ tree, ((Evaluator.mk [()] .empty .empty).evaluate dollarSetting strayDocument
        (.literal 0 .null)).result = .ok tree ∧
      ¬ validate "$" tree = .ok () := by
  have hdistinct : strayDocument.Distinct := by decide
  have hkept : strayDocument.Everywhere fun part => Marker.overtaken "$" part.keys = false := by
    decide
  have hdollar : "$" ≠ "" := by decide
  obtain ⟨tree, htree, -, hvalid⟩ := validate_unescaped_iff dollarSetting
    ⟨[()], .empty, .empty⟩ hdollar rfl rfl hdistinct (by decide) (.literal 0 .null)
  refine ⟨hdistinct, hkept, tree, htree, fun h => ?_⟩
  have hall := (hvalid hkept).1 h
  revert hall
  decide

/-- A document in which a stray key comes before its doubled spelling. -/
def overwrittenDocument : Json := .object [("$a", .ofInt 1), ("$$a", .ofInt 2)]

/-- The stray key of the document is lost without a report: validation passes. -/
theorem validate_misses_stray :
    ∃ tree, ((Evaluator.mk [()] .empty .empty).evaluate dollarSetting overwrittenDocument
        (.literal 0 .null)).result = .ok tree ∧
      validate "$" tree = .ok () ∧ tree.toJson = .object [("$a", .ofInt 2)] ∧
      ¬ overwrittenDocument.Everywhere fun part => ∀ key ∈ part.keys,
        Marker.starts "$" key = true → Marker.starts ("$" ++ "$") key = true :=
  ⟨_, rfl, rfl, by decide, by decide⟩

end ReservedKeys

end LayeredConfig
