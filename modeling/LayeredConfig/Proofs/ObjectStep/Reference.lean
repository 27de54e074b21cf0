import LayeredConfig.Evaluation.ObjectStep
import LayeredConfig.Evaluation.Frame
import LayeredConfig.Proofs.Merge.Values

/-!
# What an object comes to

The object step files its evaluated members into four groups as it meets them and then puts the
groups together. Here the same is said at once, from the list of members: `requestOf` is what a
member's metadata asks for, and the outcome is the failure of the first member with a bad name,
else the first member that replaces the object, else the value `combinedValue`. The main
statement is `run_eq_reference`; it rests on `result_placeAll`, which gives all four groups as
filters of the members.
-/

namespace LayeredConfig

namespace ObjectStep

/-- What a member's metadata asks of the object that holds it. -/
inductive Request where
  | merge
  | override
  | flatten
  | rename (target : Json)
  | keep
  deriving DecidableEq

/-- Of several requests the first in the order merge, override, flatten, rename counts. -/
def requestOf (metadata : Metadata) : Request :=
  if metadata.get? Metadata.shouldMerge = some (.bool true) then .merge
  else if metadata.get? Metadata.shouldOverride = some (.bool true) then .override
  else if metadata.get? Metadata.shouldFlatten = some (.bool true) then .flatten
  else
    match metadata.get? Metadata.renameKey with
    | some target => .rename target
    | none => .keep

/-- The key of a member that is to be kept under something that is no key, and what was found. -/
def misnamed? (entry : String × Node) : Option (String × Json) :=
  match requestOf entry.2.metadata with
  | .rename (.string _) => none
  | .rename found => some (entry.1, found)
  | _ => none

/-- Whether a member takes the place of its object: it asks for that, or it asks to be combined
with the object and is none itself. -/
def replaces (entry : String × Node) : Bool :=
  match requestOf entry.2.metadata with
  | .flatten => true
  | .merge | .override => !entry.2.isObject
  | _ => false

/-- The value of a member that stays, under its own key or under the one it is renamed to. -/
def keptValue? (entry : String × Node) : Option (String × Json) :=
  match requestOf entry.2.metadata with
  | .keep => some (entry.1, entry.2.toJson)
  | .rename (.string key) => some (key, entry.2.toJson)
  | _ => none

/-- The values of the members that make one request, in the order of the members. -/
def requestedValues (request : Request) (members : List (String × Node)) : List Json :=
  (members.filter fun entry => requestOf entry.2.metadata = request).map fun entry => entry.2.toJson

/-- The value of an object that no member replaces: what stays, under every merging member in
turn, each of which goes below all before it, and then under every overriding member. -/
def combinedValue (members : List (String × Node)) : Json :=
  let kept := Json.object (Members.ofList (members.filterMap keptValue?))
  let merged := (requestedValues .merge members).foldl (fun upper lower => lower.overlay upper) kept
  Json.overlayAll merged (requestedValues .override members)

/-! ### Filing members -/

theorem roleOf_eq (member : Node) :
    roleOf member =
      match requestOf member.metadata with
      | .merge => if member.isObject then .merged else .demoted
      | .override => if member.isObject then .overriding else .demoted
      | .flatten => .flattened
      | .rename (.string key) => .renamed key
      | .rename found => .misnamed found
      | .keep => .kept := by
  unfold roleOf requestOf
  simp only [Metadata.flag_eq_true_iff]
  split
  · rfl
  · split
    · rfl
    · split
      · rfl
      · cases h : member.metadata.get? Metadata.renameKey with
        | none => rfl
        | some target => cases target <;> rfl

/-- A member that stays, as it is filed. -/
def keptMember? (entry : String × Node) : Option (String × Node) :=
  match requestOf entry.2.metadata with
  | .keep => some entry
  | .rename (.string key) => some (key, entry.2.withoutInstructions)
  | _ => none

/-- Whether a member is an object and makes a request to be combined. -/
def combines (request : Request) (entry : String × Node) : Bool :=
  requestOf entry.2.metadata = request && entry.2.isObject

/-- The members that `p` picks, as they are filed. -/
def picked (p : String × Node → Bool) (members : List (String × Node)) : List Node :=
  (members.filter p).map fun entry => entry.2.withoutInstructions

/-- What members have with and without their instructions is what those that stay have. -/
theorem forall_mem_kept {Q : Node → Prop} {members : List (String × Node)}
    (h : ∀ entry ∈ members, Q entry.2 ∧ Q entry.2.withoutInstructions) :
    ∀ kept ∈ members.filterMap keptMember?, Q kept.2 := by
  intro kept hkept
  obtain ⟨entry, hentry, heq⟩ := List.mem_filterMap.1 hkept
  obtain ⟨hown, hplain⟩ := h entry hentry
  unfold keptMember? at heq
  split at heq
  · obtain rfl := Option.some.inj heq
    exact hown
  · obtain rfl := Option.some.inj heq
    exact hplain
  · cases heq

theorem forall_mem_picked {Q : Node → Prop} {members : List (String × Node)}
    (h : ∀ entry ∈ members, Q entry.2.withoutInstructions) (p : String × Node → Bool) :
    ∀ item ∈ picked p members, Q item :=
  List.forall_mem_map.2 fun entry hentry => h entry (List.mem_filter.1 hentry).1

/-- The groups with further members filed into them. -/
def filed (groups : Groups) (members : List (String × Node)) : Groups where
  kept := groups.kept.extend (members.filterMap keptMember?)
  flattened := groups.flattened ++ picked replaces members
  merged := groups.merged ++ picked (combines .merge) members
  overriding := groups.overriding ++ picked (combines .override) members

theorem filed_nil (groups : Groups) : filed groups [] = groups := by
  simp [filed, picked, Members.extend]

theorem filed_filed (groups : Groups) (xs ys : List (String × Node)) :
    filed (filed groups xs) ys = filed groups (xs ++ ys) := by
  simp [filed, picked, Members.extend, List.filterMap_append, List.append_assoc]

/-- One member is filed, or fails because of its name. -/
theorem result_place (path : String) (groups : Groups) (key : String) (member : Node) :
    (place path groups key member).result =
      match misnamed? (key, member) with
      | some (key, found) => .error (misnamedError path key found)
      | none => .ok (filed groups [(key, member)]) := by
  unfold place
  rw [roleOf_eq]
  cases hr : requestOf member.metadata with
  | rename target =>
      cases target <;>
        simp [misnamed?, filed, picked, keptMember?, replaces, combines, Members.extend, hr,
          Logged.result_bind, Except.bind, Logged.report]
  | _ =>
      cases ho : member.isObject <;>
        simp [misnamed?, filed, picked, keptMember?, replaces, combines, Members.extend, hr, ho,
          Logged.result_bind, Except.bind, Logged.report]

/-- Filing members one after the other fails with the first bad name, and otherwise gives the
four groups. -/
theorem result_placeAll (path : String) (groups : Groups) (members : List (String × Node)) :
    (placeAll path groups members).result =
      match members.findSome? misnamed? with
      | some (key, found) => .error (misnamedError path key found)
      | none => .ok (filed groups members) := by
  induction members generalizing groups with
  | nil => simp [placeAll, filed_nil]
  | cons entry rest ih =>
      obtain ⟨key, member⟩ := entry
      rw [placeAll, Logged.result_bind, result_place, List.findSome?_cons]
      cases hbad : misnamed? (key, member) with
      | some bad => rfl
      | none =>
          change (placeAll path (filed groups [(key, member)]) rest).result = _
          rw [ih, filed_filed, List.singleton_append]

/-! ### Putting the groups together -/

theorem result_flatten (path : String) (metadata : Metadata) (keyCount : Nat) (first : Node)
    (others : List Node) :
    (flatten path metadata keyCount first others).result = .ok (first.addMetadata metadata) := by
  unfold flatten
  split <;> split <;> simp [Logged.result_bind, Except.bind, Logged.report]

/-- The outcome of the object step, from the members. -/
theorem result_run (path : String) (label : Label) (members : List (String × Node)) :
    (run path label members).result =
      match members.findSome? misnamed? with
      | some (key, found) => .error (misnamedError path key found)
      | none =>
        match members.find? replaces with
        | some (_, first) => .ok (first.withoutInstructions.addMetadata label.metadata)
        | none => .ok (assemble label (filed {} members)) := by
  rw [run, Logged.result_bind, result_placeAll]
  cases members.findSome? misnamed? with
  | some bad => rfl
  | none =>
      have hfirst : (filed {} members).flattened.head? =
          (members.find? replaces).map fun entry => entry.2.withoutInstructions := by
        rw [← List.head?_filter]
        simp [filed, picked]
      cases hfound : members.find? replaces with
      | some entry =>
          rw [hfound] at hfirst
          obtain ⟨others, hflat⟩ := List.head?_eq_some_iff.1 hfirst
          simp only [Except.bind, hflat]
          exact result_flatten ..
      | none =>
          rw [hfound] at hfirst
          have hflat := List.head?_eq_none_iff.1 hfirst
          simp only [Except.bind, hflat]
          rfl

/-- An object comes to the first member that replaces it, or to what its members make up. -/
theorem eq_of_result_run {path : String} {label : Label} {members : List (String × Node)}
    {node : Node} (hok : (run path label members).result = .ok node) :
    members.findSome? misnamed? = none ∧
      ((∃ entry, members.find? replaces = some entry ∧
          node = entry.2.withoutInstructions.addMetadata label.metadata) ∨
        members.find? replaces = none ∧ node = assemble label (filed {} members)) := by
  rw [result_run] at hok
  cases hbad : members.findSome? misnamed? with
  | some bad => rw [hbad] at hok; cases hok
  | none =>
      refine ⟨rfl, ?_⟩
      rw [hbad] at hok
      cases hfirst : members.find? replaces with
      | some entry =>
          rw [hfirst] at hok
          exact .inl ⟨entry, rfl, (Except.ok.inj hok).symm⟩
      | none =>
          rw [hfirst] at hok
          exact .inr ⟨rfl, (Except.ok.inj hok).symm⟩

/-- What merging and other metadata at the root keep holds of what an object comes to, when it holds
of the kept members as an object and of every member without its instructions. -/
theorem of_result_run {Q : Node → Prop} {path : String} {label : Label}
    {members : List (String × Node)} {node : Node}
    (hmerge : ∀ lower upper, Q lower → Q upper → Q (lower.merge upper))
    (hadd : ∀ n, Q n → Q (n.addMetadata label.metadata))
    (hkept : Q (.object label (Members.ofList (members.filterMap keptMember?))))
    (hplain : ∀ entry ∈ members, Q entry.2.withoutInstructions)
    (hok : (run path label members).result = .ok node) : Q node := by
  rcases (eq_of_result_run hok).2 with ⟨entry, hfirst, rfl⟩ | ⟨-, rfl⟩
  · exact hadd _ (hplain entry (List.mem_of_find?_eq_some hfirst))
  · have hpicked := forall_mem_picked hplain
    have hbase : Q ((picked (combines .merge) members).foldl (fun lower item => item.merge lower)
        (.object label (Members.ofList (members.filterMap keptMember?)))) :=
      List.foldlRecOn _ _ hkept fun lower hlower item hitem =>
        hmerge item lower (hpicked _ item hitem) hlower
    exact List.foldlRecOn _ Node.merge hbase fun lower hlower item hitem =>
      hmerge lower item hlower (hpicked _ item hitem)

/-! ### The value of what is assembled -/

theorem map_toJson_picked (p : String × Node → Bool) (members : List (String × Node)) :
    (picked p members).map Node.toJson = (members.filter p).map fun entry => entry.2.toJson := by
  simp [picked, Node.withoutInstructions, Function.comp_def]

theorem wellFormed_picked {p : String × Node → Bool} {members : List (String × Node)}
    (h : ∀ entry ∈ members, entry.2.WellFormed) : ∀ item ∈ picked p members, item.WellFormed :=
  forall_mem_picked (fun entry hentry => Node.wellFormed_withMetadata.2 (h entry hentry)) p

theorem mapValues_keptMember? (members : List (String × Node)) :
    Members.mapValues Node.toJson (members.filterMap keptMember?) =
      members.filterMap keptValue? := by
  have hentry : ∀ entry : String × Node,
      ((keptMember? entry).map fun kept => (kept.1, kept.2.toJson)) = keptValue? entry := by
    intro entry
    unfold keptMember? keptValue?
    cases requestOf entry.2.metadata with
    | rename target => cases target <;> simp [Node.withoutInstructions]
    | _ => rfl
  rw [Members.mapValues, List.map_filterMap]
  simp [hentry]

theorem wellFormed_keptMember? {members : List (String × Node)}
    (h : ∀ entry ∈ members, entry.2.WellFormed) :
    ∀ entry ∈ members.filterMap keptMember?, entry.2.WellFormed :=
  forall_mem_kept fun entry hentry =>
    ⟨h entry hentry, Node.wellFormed_withMetadata.2 (h entry hentry)⟩

/-- Merging items under a tree one after the other, each below all before it. -/
theorem toJson_foldl_under {base : Node} {items : List Node} (hb : base.WellFormed)
    (hi : ∀ item ∈ items, item.WellFormed) :
    (items.foldl (fun lower item => item.merge lower) base).WellFormed ∧
      (items.foldl (fun lower item => item.merge lower) base).toJson =
        (items.map Node.toJson).foldl (fun upper lower => lower.overlay upper) base.toJson := by
  induction items generalizing base with
  | nil => exact ⟨hb, rfl⟩
  | cons item rest ih =>
      obtain ⟨hitem, hrest⟩ := List.forall_mem_cons.1 hi
      obtain ⟨hwf, hvalue⟩ := ih (hitem.merge hb) hrest
      refine ⟨hwf, ?_⟩
      rw [List.foldl_cons, hvalue, Node.toJson_merge hitem hb]
      rfl

/-- Where no member replaces the object, what asks to be combined is an object. -/
theorem filter_combines {members : List (String × Node)} {request : Request}
    (hr : request = .merge ∨ request = .override)
    (h : ∀ entry ∈ members, replaces entry = false) :
    members.filter (combines request) =
      members.filter fun entry => requestOf entry.2.metadata = request := by
  apply List.filter_congr
  intro entry hentry
  have hreplaces := h entry hentry
  unfold combines
  unfold replaces at hreplaces
  rcases hr with rfl | rfl <;> cases hq : requestOf entry.2.metadata <;> simp_all

/-- The value of an object that no member replaces. -/
theorem toJson_assemble (label : Label) {members : List (String × Node)}
    (hwf : ∀ entry ∈ members, entry.2.WellFormed) (h : ∀ entry ∈ members, replaces entry = false) :
    (assemble label (filed {} members)).toJson = combinedValue members := by
  have hbase : (Node.object label (Members.ofList (members.filterMap keptMember?))).WellFormed := by
    refine Node.wellFormed_object.2 ⟨Members.distinct_ofList _, fun entry hentry => ?_⟩
    exact wellFormed_keptMember? hwf entry (Members.mem_ofList hentry)
  obtain ⟨hmerged, hvalue⟩ :=
    toJson_foldl_under hbase (wellFormed_picked (p := combines .merge) hwf)
  have hassembled : assemble label (filed {} members) =
      (picked (combines .override) members).foldl Node.merge
        ((picked (combines .merge) members).foldl (fun lower item => item.merge lower)
          (.object label (Members.ofList (members.filterMap keptMember?)))) := rfl
  rw [hassembled, Node.toJson_foldl_merge hmerged (wellFormed_picked hwf), hvalue,
    map_toJson_picked, map_toJson_picked, filter_combines (.inl rfl) h,
    filter_combines (.inr rfl) h, Node.toJson_object, Members.mapValues_ofList,
    mapValues_keptMember?]
  rfl

/-- The object step, for any frame and any evaluated members: it fails exactly with the first
member that is to be kept under something that is no key; else the first member that replaces the
object is its outcome, without instructions and under the metadata of the frame; else the object
has the combined value of its members. -/
theorem run_eq_reference {ι : Type} (frame : Frame ι) (raw : Json)
    (members : List (String × Node)) :
    (∀ e, (run frame.path ⟨[frame.source], raw, frame.metadata⟩ members).result = .error e ↔
      ∃ key found, members.findSome? misnamed? = some (key, found) ∧
        e = misnamedError frame.path key found) ∧
    (members.findSome? misnamed? = none → ∀ key first,
      members.find? replaces = some (key, first) →
        (run frame.path ⟨[frame.source], raw, frame.metadata⟩ members).result =
          .ok (first.withMetadata
            (first.metadata.withoutInstructions.extended frame.metadata))) ∧
    (members.findSome? misnamed? = none → members.find? replaces = none →
      (∀ entry ∈ members, entry.2.WellFormed) →
      ∃ node, (run frame.path ⟨[frame.source], raw, frame.metadata⟩ members).result = .ok node ∧
        node.toJson = combinedValue members) := by
  refine ⟨fun e => ?_, fun hnamed key first hfirst => ?_, fun hnamed hnone hwf => ?_⟩
  · rw [result_run]
    cases hbad : members.findSome? misnamed? with
    | some bad =>
        obtain ⟨key, found⟩ := bad
        constructor
        · intro h
          exact ⟨key, found, rfl, (Except.error.inj h).symm⟩
        · rintro ⟨_, _, heq, rfl⟩
          cases heq
          rfl
    | none => cases members.find? replaces <;> simp
  · rw [result_run, hnamed, hfirst]
    simp [Node.withoutInstructions, Node.addMetadata]
  · rw [result_run, hnamed, hnone]
    have hall : ∀ entry ∈ members, replaces entry = false := by
      simpa using List.find?_eq_none.1 hnone
    exact ⟨_, rfl, toJson_assemble _ hwf hall⟩

/-- The frame of a root without settings. -/
def bareFrame : Frame Nat where
  source := .literal 0 .null
  extensions := []
  metadata := .empty
  context := .empty
  ancestors := []
  position := .root
  root := .null
  parent := none
  visited := []

/-- A member of the given value, with one entry of metadata. -/
def memberOf (value : Json) (key : String) (entry : Json) : Node :=
  (Node.literal (.literal 1 .null) .empty value).withMetadata ⟨[(key, entry)]⟩

/-- Two members to merge under, one to lay over, one renamed and one kept. -/
def combinedMembers : List (String × Node) :=
  [("first", memberOf (.object [("a", .object [("y", .ofInt 1)]), ("b", .ofInt 1)])
      Metadata.shouldMerge (.bool true)),
    ("a", memberOf (.object [("x", .ofInt 0)]) "note" .null),
    ("old", memberOf (.ofInt 2) Metadata.renameKey (.string "b")),
    ("second", memberOf (.object [("c", .ofInt 3), ("b", .ofInt 9)])
      Metadata.shouldMerge (.bool true)),
    ("over", memberOf (.object [("a", .object [("x", .ofInt 7)])])
      Metadata.shouldOverride (.bool true))]

/-- A member that cannot be merged before one that flattens. -/
def replacingMembers : List (String × Node) :=
  [("kept", memberOf .null "note" .null),
    ("scalar", memberOf (.ofInt 4) Metadata.shouldMerge (.bool true)),
    ("flat", memberOf .null Metadata.shouldFlatten (.bool true))]

theorem run_eq_reference_members :
    (replacingMembers.findSome? misnamed? = none ∧
      replacingMembers.find? replaces =
        some ("scalar", memberOf (.ofInt 4) Metadata.shouldMerge (.bool true)) ∧
      (run bareFrame.path ⟨[bareFrame.source], .null, bareFrame.metadata⟩ replacingMembers).result =
        .ok ((memberOf (.ofInt 4) Metadata.shouldMerge (.bool true)).withMetadata .empty)) ∧
    (combinedMembers.findSome? misnamed? = none ∧ combinedMembers.find? replaces = none ∧
      (∀ entry ∈ combinedMembers, entry.2.WellFormed) ∧
      ∃ node, (run bareFrame.path ⟨[bareFrame.source], .null, bareFrame.metadata⟩
          combinedMembers).result = .ok node ∧
        node.toJson = .object [("c", .ofInt 3), ("b", .ofInt 2),
          ("a", .object [("y", .ofInt 1), ("x", .ofInt 7)])]) := by
  obtain ⟨-, hreplaced, -⟩ := run_eq_reference bareFrame .null replacingMembers
  obtain ⟨-, -, hcombined⟩ := run_eq_reference bareFrame .null combinedMembers
  obtain ⟨node, hok, hvalue⟩ := hcombined rfl rfl (by decide)
  exact ⟨⟨rfl, rfl, hreplaced rfl _ _ rfl⟩, rfl, rfl, by decide, node, hok,
    hvalue.trans (by decide)⟩

end ObjectStep

end LayeredConfig
